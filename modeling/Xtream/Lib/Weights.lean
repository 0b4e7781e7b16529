import Mathlib
import Xtream.Lib.SlidingWindow
import Xtream.Lib.Slices

/-!
# Total weights

The items of a list have weights in a commutative monoid, and the list has their total.

* `total_slices`: windows that do not overlap have the total of the list;
* `Batch.perm`: the calls of a batch hold each item as often as windows cover it, and so
  `Batch.total`: for an advance that divides the size they have a multiple of the total.
-/

namespace Weights

universe u w

variable {α : Type u} {M : Type w} [AddCommMonoid M]

/-- The total weight of a list. -/
def total (weight : α → M) (xs : List α) : M := (xs.map weight).sum

variable {weight : α → M}

@[simp] theorem total_nil : total weight [] = 0 := rfl

@[simp] theorem total_cons (x : α) (xs : List α) :
    total weight (x :: xs) = weight x + total weight xs := by
  simp [total]

@[simp] theorem total_append (xs ys : List α) :
    total weight (xs ++ ys) = total weight xs + total weight ys := by
  simp [total]

theorem total_perm {xs ys : List α} (h : xs.Perm ys) : total weight xs = total weight ys :=
  (h.map weight).sum_eq

@[simp] theorem total_replicate (n : Nat) (x : α) :
    total weight (List.replicate n x) = n • weight x := by
  simp [total]

/-- A list made of each item `n` times. -/
theorem total_flatMap_replicate {n : Nat} {xs : List α} {f : α → Nat} (h : ∀ x ∈ xs, f x = n) :
    total weight (xs.flatMap fun x => List.replicate (f x) x) = n • total weight xs := by
  induction xs with
  | nil => simp
  | cons x xs ih =>
    obtain ⟨hx, hxs⟩ := List.forall_mem_cons.mp h
    rw [List.flatMap_cons, total_append, total_replicate, ih hxs, hx, total_cons, nsmul_add]

/-! ## Windows -/

/-- **Windows that do not overlap** have the total of the list. -/
theorem total_slices {size : Nat} (hsize : 0 < size) (xs : List α) :
    total weight (Slices.slices size size xs).flatten + total weight (Slices.rest size size xs) =
      total weight xs := by
  rw [← total_append, Slices.flatten_slices hsize]

end Weights

namespace SlidingWindow.Batch

open Weights

universe u w

variable {α : Type u} {time : α → Nat} {size advance : Nat} {items : List α}
  {calls : List (Nat × List α)}

/-- Only the copies of an item count. -/
theorem count_flatMap_replicate [DecidableEq α] (f : α → Nat) (x : α) (xs : List α) :
    (xs.flatMap fun y => List.replicate (f y) y).count x = xs.count x * f x := by
  induction xs with
  | nil => simp
  | cons y xs ih =>
    rw [List.flatMap_cons, List.count_append, ih, List.count_replicate, List.count_cons]
    by_cases hy : y = x
    · subst hy
      simp [Nat.succ_mul, Nat.add_comm]
    · simp [hy]

/-- The calls hold each item as often as windows cover it. -/
theorem perm (hadv : 0 < advance) (h : Batch time size advance items calls) :
    (calls.flatMap Prod.snd).Perm (items.flatMap fun x =>
      List.replicate ((time x + size) / advance - time x / advance) x) := by
  classical
  refine List.perm_iff_count.mpr fun x => ?_
  rw [h.count hadv x, count_flatMap_replicate]

/-- The calls have a multiple of the total, when all times are covered equally often. -/
theorem total {M : Type w} [AddCommMonoid M] {weight : α → M} (hadv : 0 < advance)
    (hdvd : advance ∣ size) (h : Batch time size advance items calls) :
    Weights.total weight (calls.flatMap Prod.snd) =
      (size / advance) • Weights.total weight items := by
  rw [total_perm (h.perm hadv)]
  refine total_flatMap_replicate fun x _ => ?_
  obtain ⟨q, rfl⟩ := hdvd
  rw [Nat.add_mul_div_left _ _ hadv, Nat.add_sub_cancel_left, Nat.mul_div_cancel_left q hadv]

end SlidingWindow.Batch
