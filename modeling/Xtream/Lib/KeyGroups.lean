import Mathlib.Data.List.Nodup
import Mathlib.Order.Lattice

/-!
# Lists sorted by a key

Items with equal keys form a group. The order of a sorted list is that of its keys, and within each
group that of the group.

* `group_reverse`: the groups of items with different keys;
* `eq_of_group`: sorted lists with the same groups are equal.
-/

namespace KeyGroups

universe u v

variable {α : Type u} {κ : Type v} [LinearOrder κ] {key : α → κ}

/-- The items with the key `t`, in their order. -/
def group (key : α → κ) (t : κ) (l : List α) : List α := l.filter fun a => key a = t

theorem group_cons_self (a : α) (l : List α) :
    group key (key a) (a :: l) = a :: group key (key a) l := by
  simp [group]

theorem group_cons_of_ne {a : α} {t : κ} (h : key a ≠ t) (l : List α) :
    group key t (a :: l) = group key t l := by
  simp [group, h]

@[simp] theorem group_append (t : κ) (l l' : List α) :
    group key t (l ++ l') = group key t l ++ group key t l' := List.filter_append _ _

theorem mem_group {t : κ} {l : List α} {a : α} : a ∈ group key t l ↔ a ∈ l ∧ key a = t := by
  simp [group]

/-- The groups of the items that a predicate of the key selects. -/
theorem group_filter {p : κ → Prop} [DecidablePred p] (t : κ) (l : List α) :
    group key t (l.filter fun a => p (key a)) = if p t then group key t l else [] := by
  unfold group
  rw [List.filter_filter]
  split
  · rename_i ht
    refine List.filter_congr fun a _ => ?_
    by_cases ha : key a = t <;> simp [ha, ht]
  · rename_i ht
    refine List.filter_eq_nil_iff.mpr fun a _ => ?_
    by_cases ha : key a = t <;> simp [ha, ht]

/-- Where no two items have the same key, a group is the same backwards. -/
theorem group_reverse {l : List α} (h : (l.map key).Nodup) (t : κ) :
    (group key t l).reverse = group key t l := by
  have hlen : (group key t l).length ≤ 1 := by
    have hcount := List.nodup_iff_count_le_one.mp h t
    rw [List.count, List.countP_map, List.countP_eq_length_filter] at hcount
    refine le_of_eq_of_le (congrArg List.length (List.filter_congr fun a _ => ?_)) hcount
    rw [Bool.eq_iff_iff]
    simp
  match hg : group key t l with
  | [] => rfl
  | [a] => rfl
  | a :: b :: as =>
    rw [hg] at hlen
    simp at hlen

theorem mem_iff_of_group {l l' : List α} (h : ∀ t, group key t l = group key t l') (a : α) :
    a ∈ l ↔ a ∈ l' := by
  have hgroup : a ∈ group key (key a) l ↔ a ∈ l := by simp [mem_group]
  rw [← hgroup, h, mem_group, and_iff_left rfl]

/-- **A sorted list is determined by its groups.** -/
theorem eq_of_group {l l' : List α} (hl : l.Pairwise (key · ≤ key ·))
    (hl' : l'.Pairwise (key · ≤ key ·)) (h : ∀ t, group key t l = group key t l') : l = l' := by
  induction l generalizing l' with
  | nil =>
    cases l' with
    | nil => rfl
    | cons b bs => exact absurd ((mem_iff_of_group h b).mpr List.mem_cons_self) List.not_mem_nil
  | cons a as ih =>
    cases l' with
    | nil => exact absurd ((mem_iff_of_group h a).mp List.mem_cons_self) List.not_mem_nil
    | cons b bs =>
      obtain ⟨ha, has⟩ := List.pairwise_cons.mp hl
      obtain ⟨hb, hbs⟩ := List.pairwise_cons.mp hl'
      -- both heads have the least key
      have hkey : key a = key b := by
        refine le_antisymm ?_ ?_
        · rcases List.mem_cons.mp ((mem_iff_of_group h b).mpr List.mem_cons_self) with heq | hin
          · exact le_of_eq (congrArg key heq).symm
          · exact ha b hin
        · rcases List.mem_cons.mp ((mem_iff_of_group h a).mp List.mem_cons_self) with heq | hin
          · exact le_of_eq (congrArg key heq).symm
          · exact hb a hin
      have hhead := h (key a)
      rw [group_cons_self, hkey, group_cons_self] at hhead
      obtain ⟨rfl, -⟩ := List.cons.inj hhead
      have htail : ∀ t, group key t as = group key t bs := by
        intro t
        by_cases ht : key a = t
        · have hcons := h t
          rw [← ht, group_cons_self, group_cons_self] at hcons
          exact ht ▸ (List.cons.inj hcons).2
        · have hcons := h t
          rwa [group_cons_of_ne ht, group_cons_of_ne ht] at hcons
      exact congrArg (a :: ·) (ih has hbs htail)

end KeyGroups
