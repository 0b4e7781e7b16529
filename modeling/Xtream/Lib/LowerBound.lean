import Mathlib.Data.List.TakeWhile

/-!
# Lower bound by binary search

`lowerBound below l` is the loop of `std::ranges::lower_bound`: the position of the first item of
`l` that is not `below` the sought value, found by halving. It is right when `l` is *partitioned*:
an item below the value never follows one that is not. Then the position splits `l` into the items
that are below the value and the items that are not (`take_lowerBound`, `drop_lowerBound`).
-/

namespace LowerBound

universe u

variable {α : Type u}

/-- The search loop on the `len` positions from `first` on; `fuel ≥ len` never runs out. -/
def loop (below : Nat → Bool) : Nat → Nat → Nat → Nat
  | 0, first, _ => first
  | fuel + 1, first, len =>
    if len = 0 then first
    else
      let half := len / 2
      let middle := first + half
      if below middle then loop below fuel (middle + 1) (len - half - 1)
      else loop below fuel first half

/-- The position of the first item that is not `below`. -/
def lowerBound (below : α → Bool) (l : List α) : Nat :=
  loop (fun i => (l[i]?).any below) l.length 0 l.length

/-- No item below the value follows one that is not. -/
def Partitioned (below : α → Bool) (l : List α) : Prop :=
  l.Pairwise fun a b => below b = true → below a = true

/-- The loop returns the boundary `p` of the positions `first .. first + len`. -/
theorem loop_eq {below : Nat → Bool} {fuel first len p : Nat} (hfuel : len ≤ fuel)
    (hlo : first ≤ p) (hhi : p ≤ first + len) (hb : ∀ i, i < p → below i = true)
    (hnb : ∀ i, p ≤ i → i < first + len → below i = false) : loop below fuel first len = p := by
  induction fuel generalizing first len with
  | zero =>
    unfold loop
    omega
  | succ fuel ih =>
    unfold loop
    by_cases h0 : len = 0
    · rw [if_pos h0]
      omega
    · rw [if_neg h0]
      dsimp only
      by_cases hm : first + len / 2 < p
      · rw [if_pos (hb _ hm)]
        exact ih (by omega) (by omega) (by omega) fun i hi hi' => hnb i hi (by omega)
      · have hf := hnb (first + len / 2) (by omega) (by omega)
        rw [if_neg (by simp [hf])]
        exact ih (by omega) (by omega) (by omega) fun i hi hi' => hnb i hi (by omega)

/-- In a partitioned list the filter is a prefix: the items up to the boundary. -/
theorem takeWhile_eq_filter {below : α → Bool} {l : List α} (h : Partitioned below l) :
    l.takeWhile below = l.filter below := by
  induction l with
  | nil => rfl
  | cons a l ih =>
    obtain ⟨ha, hl⟩ := List.pairwise_cons.mp h
    by_cases hb : below a = true
    · rw [List.takeWhile_cons_of_pos hb, List.filter_cons_of_pos hb, ih hl]
    · rw [List.takeWhile_cons_of_neg hb, List.filter_cons_of_neg hb, List.filter_eq_nil_iff.mpr]
      exact fun b hbl hbb => hb (ha b hbl hbb)

theorem dropWhile_eq_filter {below : α → Bool} {l : List α} (h : Partitioned below l) :
    l.dropWhile below = l.filter fun a => !below a := by
  induction l with
  | nil => rfl
  | cons a l ih =>
    obtain ⟨ha, hl⟩ := List.pairwise_cons.mp h
    by_cases hb : below a = true
    · rw [List.dropWhile_cons_of_pos hb, List.filter_cons_of_neg (by simp [hb]), ih hl]
    · rw [List.dropWhile_cons_of_neg hb, List.filter_cons_of_pos (by simp [hb]),
        List.filter_eq_self.mpr]
      exact fun b hbl => by
        have := mt (ha b hbl) hb
        simpa using this

theorem lowerBound_eq {below : α → Bool} {l : List α} (h : Partitioned below l) :
    lowerBound below l = (l.takeWhile below).length := by
  have hsplit : l.takeWhile below ++ l.dropWhile below = l := List.takeWhile_append_dropWhile
  refine loop_eq (Nat.le_refl _) (Nat.zero_le _) ?_ (fun i hi => ?_) (fun i hi hi' => ?_)
  · rw [Nat.zero_add]
    exact (l.takeWhile_prefix below).length_le
  · have hg : l[i]? = some (l.takeWhile below)[i] := by
      conv => lhs; rw [← hsplit]
      rw [List.getElem?_append_left hi, List.getElem?_eq_getElem hi]
    rw [hg, Option.any_some]
    exact List.mem_takeWhile_imp (List.getElem_mem hi)
  · rw [Nat.zero_add] at hi'
    rw [List.getElem?_eq_getElem hi', Option.any_some]
    have hmem : l[i] ∈ l.dropWhile below := by
      have hlen := congrArg List.length hsplit
      rw [List.length_append] at hlen
      have hg : (l.dropWhile below)[i - (l.takeWhile below).length]? = some l[i] := by
        rw [← List.getElem?_append_right hi, hsplit, List.getElem?_eq_getElem hi']
      exact List.mem_of_getElem? hg
    rw [dropWhile_eq_filter h] at hmem
    simpa using (List.mem_filter.mp hmem).2

theorem lowerBound_le_length {below : α → Bool} {l : List α} (h : Partitioned below l) :
    lowerBound below l ≤ l.length := by
  rw [lowerBound_eq h]
  exact (l.takeWhile_prefix below).length_le

/-- The items before the boundary are the items below the value. -/
theorem take_lowerBound {below : α → Bool} {l : List α} (h : Partitioned below l) :
    l.take (lowerBound below l) = l.filter below := by
  have hsplit : l.takeWhile below ++ l.dropWhile below = l := List.takeWhile_append_dropWhile
  rw [lowerBound_eq h, ← takeWhile_eq_filter h]
  conv => lhs; arg 2; rw [← hsplit]
  exact List.take_left

/-- The items from the boundary on are the items that are not below the value. -/
theorem drop_lowerBound {below : α → Bool} {l : List α} (h : Partitioned below l) :
    l.drop (lowerBound below l) = l.filter fun a => !below a := by
  have hsplit : l.takeWhile below ++ l.dropWhile below = l := List.takeWhile_append_dropWhile
  rw [lowerBound_eq h, ← dropWhile_eq_filter h]
  conv => lhs; arg 2; rw [← hsplit]
  exact List.drop_left

end LowerBound
