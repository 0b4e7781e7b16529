import Mathlib.Algebra.Order.Group.Nat
import Mathlib.Data.List.Induction

/-!
# Sliding windows by position

Windows of `size` items start at the positions `0`, `step`, `2 * step`, … of a list; a window
counts once the list reaches its end.

* `lt_count_iff`: which windows are full;
* `slices_concat_of_eq`, `slices_concat_of_ne`: what one more item adds;
* `flatten_slices`: windows that do not overlap make up the list.
-/

namespace Slices

universe u

variable {α : Type u}

/-- The items of the `k`-th window. -/
def slice (size step : Nat) (l : List α) (k : Nat) : List α := (l.drop (k * step)).take size

/-- How many windows are full among `n` items. -/
def count (size step n : Nat) : Nat := (n + step - size) / step

/-- The full windows, in order. -/
def slices (size step : Nat) (l : List α) : List (List α) :=
  (List.range (count size step l.length)).map (slice size step l)

variable {size step : Nat}

/-- **The full windows** are those that end within the list. -/
theorem lt_count_iff {k n : Nat} (hstep : 0 < step) :
    k < count size step n ↔ k * step + size ≤ n := by
  unfold count
  rw [Nat.lt_iff_add_one_le, Nat.le_div_iff_mul_le hstep, Nat.add_mul, Nat.one_mul]
  omega

@[simp] theorem slices_length (l : List α) :
    (slices size step l).length = count size step l.length := by
  simp [slices]

theorem count_zero (hstep : 0 < step) (hle : step ≤ size) : count size step 0 = 0 := by
  refine Nat.eq_zero_of_not_pos fun h => ?_
  have := (lt_count_iff hstep).mp h
  omega

/-- The first window that is not full starts within the list, and less than `size` before its
end. -/
theorem count_bounds (hstep : 0 < step) (hle : step ≤ size) (n : Nat) :
    count size step n * step ≤ n ∧ n < count size step n * step + size := by
  refine ⟨?_, ?_⟩
  · rcases Nat.eq_zero_or_pos (count size step n) with h | h
    · rw [h]
      omega
    · -- the last full window ends within the list
      have hlast := (lt_count_iff hstep).mp (Nat.sub_one_lt_of_lt h)
      have hmul : count size step n * step = (count size step n - 1) * step + step := by
        conv => lhs; rw [← Nat.sub_add_cancel h, Nat.add_mul, Nat.one_mul]
      omega
  · have := mt (lt_count_iff hstep).mpr (Nat.lt_irrefl (count size step n))
    omega

/-- The items from the first window on that is not full. -/
def rest (size step : Nat) (l : List α) : List α := l.drop (count size step l.length * step)

theorem rest_length (l : List α) :
    (rest size step l).length = l.length - count size step l.length * step := List.length_drop

theorem rest_length_lt (hstep : 0 < step) (hle : step ≤ size) (l : List α) :
    (rest size step l).length < size := by
  have := count_bounds hstep hle l.length
  rw [rest_length]
  omega

/-- A full window does not change when an item is added. -/
theorem slice_concat {l : List α} {k : Nat} (h : k * step + size ≤ l.length) (a : α) :
    slice size step (l ++ [a]) k = slice size step l k := by
  unfold slice
  rw [List.drop_append_of_le_length (by omega),
    List.take_append_of_le_length (by rw [List.length_drop]; omega)]

theorem slice_map_concat (hstep : 0 < step) (l : List α) (a : α) :
    (List.range (count size step l.length)).map (slice size step (l ++ [a])) =
      slices size step l := by
  refine List.map_congr_left fun k hk => ?_
  exact slice_concat ((lt_count_iff hstep).mp (List.mem_range.mp hk)) a

/-- The number of full windows among `n + 1` items, if the last of them completes none. -/
theorem count_succ_of_ne (hstep : 0 < step) {n : Nat}
    (h : n + 1 ≠ count size step n * step + size) :
    count size step (n + 1) = count size step n := by
  refine Nat.le_antisymm (Nat.le_of_not_lt fun hlt => ?_) (Nat.le_of_not_lt fun hlt => ?_)
  · have h₁ := (lt_count_iff hstep).mp hlt
    have h₂ := mt (lt_count_iff hstep).mpr (Nat.lt_irrefl (count size step n))
    omega
  · have h₁ := (lt_count_iff hstep).mp hlt
    have h₂ := mt (lt_count_iff hstep).mpr (Nat.lt_irrefl (count size step (n + 1)))
    omega

/-- The number of full windows among `n + 1` items, if the last of them completes one. -/
theorem count_succ_of_eq (hstep : 0 < step) {n : Nat}
    (h : n + 1 = count size step n * step + size) :
    count size step (n + 1) = count size step n + 1 := by
  have hfull : count size step n < count size step (n + 1) :=
    (lt_count_iff hstep).mpr (by omega)
  have hnext : ¬ count size step n + 1 < count size step (n + 1) := by
    rw [lt_count_iff hstep, Nat.add_mul, Nat.one_mul]
    omega
  omega

/-- An item that does not complete the current window is added to the rest. -/
theorem slices_concat_of_ne (hstep : 0 < step) (hle : step ≤ size) {l : List α} (a : α)
    (h : (rest size step l).length + 1 ≠ size) :
    slices size step (l ++ [a]) = slices size step l ∧
      rest size step (l ++ [a]) = rest size step l ++ [a] := by
  have hb := (count_bounds hstep hle l.length).1
  rw [rest_length] at h
  have hcount : count size step (l ++ [a]).length = count size step l.length := by
    rw [List.length_append, List.length_singleton]
    exact count_succ_of_ne hstep (by omega)
  refine ⟨?_, ?_⟩
  · rw [← slice_map_concat hstep l a, slices, hcount]
  · rw [rest, rest, hcount, List.drop_append_of_le_length hb]

/-- An item that completes the current window: the window is full, and the next one starts `step`
items further on. -/
theorem slices_concat_of_eq (hstep : 0 < step) (hle : step ≤ size) {l : List α} (a : α)
    (h : (rest size step l).length + 1 = size) :
    slices size step (l ++ [a]) = slices size step l ++ [rest size step l ++ [a]] ∧
      rest size step (l ++ [a]) = (rest size step l ++ [a]).drop step := by
  have hb := (count_bounds hstep hle l.length).1
  have hlen : (rest size step l ++ [a]).length = size := by simpa using h
  rw [rest_length] at h
  have hcount : count size step (l ++ [a]).length = count size step l.length + 1 := by
    rw [List.length_append, List.length_singleton]
    exact count_succ_of_eq hstep (by omega)
  have hdrop : (l ++ [a]).drop (count size step l.length * step) = rest size step l ++ [a] := by
    rw [rest, List.drop_append_of_le_length hb]
  refine ⟨?_, ?_⟩
  · rw [slices, hcount, List.range_succ, List.map_append, slice_map_concat hstep,
      List.map_singleton, slice, hdrop, List.take_of_length_le (Nat.le_of_eq hlen)]
  · rw [rest, hcount, Nat.add_mul, Nat.one_mul, ← List.drop_drop, hdrop]

/-- **Windows that do not overlap** are the list up to the first item of the rest. -/
theorem flatten_slices (hsize : 0 < size) (l : List α) :
    (slices size size l).flatten ++ rest size size l = l := by
  induction l using List.reverseRecOn with
  | nil => simp [slices, rest, count_zero hsize]
  | append_singleton l a ih =>
    by_cases h : (rest size size l).length + 1 = size
    · obtain ⟨hslices, hrest⟩ := slices_concat_of_eq hsize (Nat.le_refl size) a h
      have hlen : (rest size size l ++ [a]).length = size := by simpa using h
      rw [hslices, hrest, List.drop_of_length_le (Nat.le_of_eq hlen), List.append_nil,
        List.flatten_append, List.flatten_singleton, ← List.append_assoc, ih]
    · obtain ⟨hslices, hrest⟩ := slices_concat_of_ne hsize (Nat.le_refl size) a h
      rw [hslices, hrest, ← List.append_assoc, ih]

end Slices
