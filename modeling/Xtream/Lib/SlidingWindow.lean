import Mathlib.Algebra.Order.Group.Nat
import Mathlib.Order.Interval.Finset.Nat
import Mathlib.Data.List.Pairwise

/-!
# Sliding windows over time-stamped items

Windows of one `size` end at the times `E`, `E + advance`, `E + 2 * advance`, …; the window that
ends at `E` covers the times `t` with `E - size ≤ t < E` (truncated at time 0).

* `content`: the items in a window;
* `windowsFrom`: the nonempty ones of the next `m` windows, with their content;
  `mem_windowsFrom` and `windowsFrom_increasing` characterise the list;
* `content_filter`: a window does not see the items before its start;
* `nextEnd`: the first window end after a time, and `card_covers`: how many windows cover a time.
-/

namespace SlidingWindow

universe u

/-- The window of this `size` that ends at `stop` covers the time `t`. -/
def Covers (size stop t : Nat) : Prop := stop - size ≤ t ∧ t < stop

instance (size stop t : Nat) : Decidable (Covers size stop t) :=
  inferInstanceAs (Decidable (_ ∧ _))

theorem covers_iff {size stop t : Nat} : Covers size stop t ↔ t < stop ∧ stop ≤ t + size := by
  unfold Covers
  omega

variable {α : Type u} (time : α → Nat) (size advance : Nat)

/-- The items in the window that ends at `stop`. -/
def content (stop : Nat) (items : List α) : List α :=
  items.filter fun x => Covers size stop (time x)

/-- The nonempty ones of the `m` windows that end at `stop`, `stop + advance`, …, each with its
end and its items. -/
def windowsFrom (items : List α) : Nat → Nat → List (Nat × List α)
  | _, 0 => []
  | stop, m + 1 =>
    if content time size stop items = [] then windowsFrom items (stop + advance) m
    else (stop, content time size stop items) :: windowsFrom items (stop + advance) m

/-- The first window end after the time `t`, for ends at the multiples of `advance`. -/
def nextEnd (t : Nat) : Nat := (t / advance + 1) * advance

variable {time size advance}

theorem mem_content {stop : Nat} {items : List α} {x : α} :
    x ∈ content time size stop items ↔ x ∈ items ∧ Covers size stop (time x) := by
  simp [content]

/-- A window does not see the items before its start. -/
theorem content_filter {bound stop : Nat} (h : bound ≤ stop - size) (items : List α) :
    content time size stop (items.filter fun x => bound ≤ time x) =
      content time size stop items := by
  unfold content
  rw [List.filter_filter]
  refine List.filter_congr fun x _ => ?_
  rw [Bool.eq_iff_iff, Bool.and_eq_true, decide_eq_true_iff, decide_eq_true_iff]
  exact ⟨And.left, fun hc => ⟨hc, h.trans hc.1⟩⟩

theorem content_perm {stop : Nat} {items items' : List α} (h : items.Perm items') :
    (content time size stop items).Perm (content time size stop items') := h.filter _

theorem windowsFrom_succ (items : List α) (stop m : Nat) :
    windowsFrom time size advance items stop (m + 1) =
      windowsFrom time size advance items stop 1 ++
        windowsFrom time size advance items (stop + advance) m := by
  simp only [windowsFrom]
  split <;> simp

theorem windowsFrom_add (items : List α) (stop m n : Nat) :
    windowsFrom time size advance items stop (m + n) =
      windowsFrom time size advance items stop m ++
        windowsFrom time size advance items (stop + m * advance) n := by
  induction m generalizing stop with
  | zero => simp [windowsFrom]
  | succ m ih =>
    rw [show m + 1 + n = (m + n) + 1 by omega, windowsFrom_succ, ih, windowsFrom_succ items stop m,
      List.append_assoc, show stop + (m + 1) * advance = stop + advance + m * advance by
        rw [Nat.succ_mul]; omega]

theorem mem_windowsFrom {items : List α} {stop m E : Nat} {v : List α} :
    (E, v) ∈ windowsFrom time size advance items stop m ↔
      ∃ j < m, E = stop + j * advance ∧ v = content time size E items ∧ v ≠ [] := by
  induction m generalizing stop with
  | zero => simp [windowsFrom]
  | succ m ih =>
    have hhead : (E, v) ∈ windowsFrom time size advance items stop 1 ↔
        E = stop ∧ v = content time size E items ∧ v ≠ [] := by
      simp only [windowsFrom]
      split
      · rename_i h
        constructor
        · intro hm
          cases hm
        · rintro ⟨rfl, rfl, hv⟩
          exact absurd h hv
      · rename_i h
        simp only [List.mem_singleton, Prod.mk.injEq]
        constructor
        · rintro ⟨rfl, rfl⟩
          exact ⟨rfl, rfl, h⟩
        · rintro ⟨rfl, rfl, -⟩
          exact ⟨rfl, rfl⟩
    rw [windowsFrom_succ, List.mem_append, hhead, ih]
    constructor
    · rintro (⟨rfl, hv⟩ | ⟨j, hj, rfl, hv⟩)
      · exact ⟨0, by omega, by simp, hv⟩
      · exact ⟨j + 1, by omega, by rw [Nat.succ_mul]; omega, hv⟩
    · rintro ⟨j, hj, rfl, hv⟩
      cases j with
      | zero => exact Or.inl ⟨by simp, hv⟩
      | succ j => exact Or.inr ⟨j, by omega, by rw [Nat.succ_mul]; omega, hv⟩

/-- The windows come in the order of their ends, each at most once. -/
theorem windowsFrom_increasing (hadv : 0 < advance) (items : List α) (stop m : Nat) :
    (windowsFrom time size advance items stop m).Pairwise fun p q => p.1 < q.1 := by
  induction m generalizing stop with
  | zero => exact List.Pairwise.nil
  | succ m ih =>
    unfold windowsFrom
    split
    · exact ih _
    · refine List.pairwise_cons.mpr ⟨fun q hq => ?_, ih _⟩
      obtain ⟨j, -, hE, -⟩ := mem_windowsFrom.mp (show (q.1, q.2) ∈ _ from hq)
      show stop < q.1
      rw [hE]
      have := Nat.zero_le (j * advance)
      omega

/-- Equal contents give equal windows. -/
theorem windowsFrom_congr {items items' : List α} {stop m : Nat}
    (h : ∀ j < m, content time size (stop + j * advance) items =
      content time size (stop + j * advance) items') :
    windowsFrom time size advance items stop m = windowsFrom time size advance items' stop m := by
  induction m generalizing stop with
  | zero => rfl
  | succ m ih =>
    have h0 := h 0 (by omega)
    rw [Nat.zero_mul, Nat.add_zero] at h0
    have hrest := @ih (stop + advance) fun j hj => by
      have := h (j + 1) (by omega)
      rwa [Nat.succ_mul, show stop + (j * advance + advance) = stop + advance + j * advance by
        omega] at this
    unfold windowsFrom
    rw [h0, hrest]

/-! ## The windows that cover a time -/

theorem lt_nextEnd (hadv : 0 < advance) (t : Nat) : t < nextEnd advance t := by
  unfold nextEnd
  have h1 := Nat.div_add_mod t advance
  have h2 := Nat.mod_lt t hadv
  rw [Nat.mul_comm] at h1
  rw [Nat.succ_mul]
  omega

/-- A multiple of `advance` is at least the next window end iff it is after the time. -/
theorem nextEnd_le_iff (hadv : 0 < advance) {t k : Nat} :
    nextEnd advance t ≤ k * advance ↔ t < k * advance := by
  unfold nextEnd
  rw [Nat.mul_le_mul_right_iff hadv, Nat.succ_le_iff, Nat.div_lt_iff_lt_mul hadv]

/-- The windows that cover `t` are those whose index is in `(t / advance, (t + size) / advance]`. -/
theorem covers_mul_iff (hadv : 0 < advance) {t k : Nat} :
    Covers size (k * advance) t ↔ t / advance < k ∧ k ≤ (t + size) / advance := by
  rw [covers_iff, Nat.div_lt_iff_lt_mul hadv, Nat.le_div_iff_mul_le hadv]

/-- **How many windows cover a time.** -/
theorem card_covers (hadv : 0 < advance) {t n : Nat} (hn : (t + size) / advance ≤ n) :
    ((Finset.Icc 1 n).filter fun k => Covers size (k * advance) t).card =
      (t + size) / advance - t / advance := by
  have h : ((Finset.Icc 1 n).filter fun k => Covers size (k * advance) t) =
      Finset.Ioc (t / advance) ((t + size) / advance) := by
    ext k
    simp only [Finset.mem_filter, Finset.mem_Icc, Finset.mem_Ioc, covers_mul_iff hadv]
    constructor
    · exact And.right
    · rintro ⟨h1, h2⟩
      exact ⟨⟨by have := Nat.zero_le (t / advance); omega, h2.trans hn⟩, h1, h2⟩
  rw [h, Nat.card_Ioc]

/-! ## Batches -/

/-- The calls that evaluate all windows over the items at once: one for each nonempty window, on an
arrangement of its content, in the order of the ends. -/
structure Batch (time : α → Nat) (size advance : Nat) (items : List α)
    (calls : List (Nat × List α)) : Prop where
  sound : ∀ c ∈ calls, (∃ k, 1 ≤ k ∧ c.1 = k * advance) ∧
    c.2.Perm (content time size c.1 items) ∧ c.2 ≠ []
  complete : ∀ k, 1 ≤ k → content time size (k * advance) items ≠ [] →
    ∃ c ∈ calls, c.1 = k * advance
  increasing : (calls.map Prod.fst).Pairwise (· < ·)

namespace Batch

variable {items : List α} {calls : List (Nat × List α)}

/-- The calls whose window covers an item are as many as the windows that cover it. -/
theorem length_covers (hadv : 0 < advance) (h : Batch time size advance items calls) {x : α}
    (hx : x ∈ items) : (calls.filter fun c => Covers size c.1 (time x)).length =
      (time x + size) / advance - time x / advance := by
  rw [← card_covers hadv (Nat.le_refl ((time x + size) / advance)),
    ← Finset.card_image_of_injective _ (fun k k' => Nat.eq_of_mul_eq_mul_right (m := advance) hadv),
    ← List.length_map (f := Prod.fst), ← List.toFinset_card_of_nodup]
  · refine congrArg Finset.card (Finset.ext fun E => ?_)
    simp only [List.mem_toFinset, List.mem_map, List.mem_filter, decide_eq_true_iff,
      Finset.mem_image, Finset.mem_filter, Finset.mem_Icc]
    constructor
    · rintro ⟨c, ⟨hc, hcov⟩, rfl⟩
      obtain ⟨⟨k, hk, hck⟩, -⟩ := h.sound c hc
      rw [hck] at hcov ⊢
      exact ⟨k, ⟨⟨hk, ((covers_mul_iff hadv).mp hcov).2⟩, hcov⟩, rfl⟩
    · rintro ⟨k, ⟨⟨hk, -⟩, hcov⟩, rfl⟩
      obtain ⟨c, hc, hck⟩ := h.complete k hk
        (List.ne_nil_of_mem (mem_content.mpr ⟨hx, hcov⟩))
      exact ⟨c, ⟨hc, hck ▸ hcov⟩, hck⟩
  · have hlt := h.increasing.sublist ((List.filter_sublist
      (p := fun c => decide (Covers size c.1 (time x))) (l := calls)).map Prod.fst)
    exact hlt.imp Nat.ne_of_lt

/-- Nothing is lost or counted twice: each item is in one call for each window that covers it. -/
theorem count [DecidableEq α] (hadv : 0 < advance) (h : Batch time size advance items calls)
    (x : α) : (calls.flatMap Prod.snd).count x =
      items.count x * ((time x + size) / advance - time x / advance) := by
  have hcalls : ∀ cs : List (Nat × List α),
      (∀ c ∈ cs, c.2.Perm (content time size c.1 items)) → (cs.flatMap Prod.snd).count x =
        items.count x * (cs.filter fun c => Covers size c.1 (time x)).length := by
    intro cs hcs
    induction cs with
    | nil => rfl
    | cons c cs ih =>
      obtain ⟨hc, hcs⟩ := List.forall_mem_cons.mp hcs
      rw [List.flatMap_cons, List.count_append, ih hcs, hc.count_eq]
      by_cases hcov : Covers size c.1 (time x)
      · rw [List.filter_cons_of_pos (by simpa using hcov), List.length_cons, Nat.mul_succ,
          content, List.count_filter (by simpa using hcov), Nat.add_comm]
      · rw [List.filter_cons_of_neg (by simpa using hcov), List.count_eq_zero.mpr, Nat.zero_add]
        exact fun hmem => hcov (mem_content.mp hmem).2
  rw [hcalls calls fun c hc => (h.sound c hc).2.1]
  by_cases hx : x ∈ items
  · rw [h.length_covers hadv hx]
  · rw [List.count_eq_zero.mpr hx, Nat.zero_mul, Nat.zero_mul]

/-- Another arrangement of the items has the same calls, on other arrangements of the contents. -/
theorem exists_call {items' : List α} {calls' : List (Nat × List α)} (hperm : items.Perm items')
    (h : Batch time size advance items calls) (h' : Batch time size advance items' calls')
    {c : Nat × List α} (hc : c ∈ calls) : ∃ c' ∈ calls', c.1 = c'.1 ∧ c.2.Perm c'.2 := by
  obtain ⟨⟨k, hk, hck⟩, hcontent, hne⟩ := h.sound c hc
  have hcontent' := hcontent.trans (content_perm hperm)
  rw [hck] at hcontent'
  obtain ⟨c', hc', hck'⟩ := h'.complete k hk fun hnil => hne (hnil ▸ hcontent').eq_nil
  refine ⟨c', hc', hck.trans hck'.symm, hcontent'.trans ?_⟩
  rw [← hck']
  exact (h'.sound c' hc').2.1.symm

/-- One batch for all arrangements of the items, when the contents of the windows have one
arrangement only. -/
theorem unique {items' : List α} {calls' : List (Nat × List α)} (hperm : items.Perm items')
    (h : Batch time size advance items calls) (h' : Batch time size advance items' calls')
    (harranged : ∀ c ∈ calls, ∀ c' ∈ calls', c.2.Perm c'.2 → c.2 = c'.2) : calls = calls' := by
  have hmem : ∀ c, c ∈ calls ↔ c ∈ calls' := by
    intro c
    constructor
    · intro hc
      obtain ⟨c', hc', hend, hsame⟩ := exists_call hperm h h' hc
      rwa [Prod.ext hend (harranged c hc c' hc' hsame)]
    · intro hc
      obtain ⟨c', hc', hend, hsame⟩ := exists_call hperm.symm h' h hc
      rwa [Prod.ext hend (harranged c' hc' c hc hsame.symm).symm]
  have hlt := List.pairwise_map.mp h.increasing
  have hlt' := List.pairwise_map.mp h'.increasing
  have hnodup : ∀ {cs : List (Nat × List α)}, cs.Pairwise (fun c d => c.1 < d.1) → cs.Nodup :=
    fun hcs => hcs.imp fun hcd heq => Nat.ne_of_lt hcd (congrArg Prod.fst heq)
  exact ((List.perm_ext_iff_of_nodup (hnodup hlt) (hnodup hlt')).mpr hmem).eq_of_pairwise
    (fun c d _ _ hcd hdc => absurd hcd (Nat.lt_asymm hdc)) hlt hlt'

end Batch

end SlidingWindow
