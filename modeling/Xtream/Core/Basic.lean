import Mathlib

/-!
# Strict integers and faults (`src/core/types`)

`u64` and `usize` are `StrictInt<uint64_t>` (`size_t` is `uint64_t` on the 64-bit targets): the
overflow assertion of `StrictInt` is for signed types only, so `+` and `-` wrap. They are Lean's
`UInt64`, and the lemmas here say when the wrapping operations agree with those of `Nat`.
-/

namespace Xtream

/-- How a call fails: an `assert` fires, or the behaviour is undefined (an index past the end, a
null pointer). -/
inductive Fault
  | assertion
  | undefined
  deriving DecidableEq, Repr

/-- `std::max` on `u64`. -/
def stdMax (a b : UInt64) : UInt64 := if a < b then b else a

theorem toNat_stdMax (a b : UInt64) : (stdMax a b).toNat = max a.toNat b.toNat := by
  unfold stdMax
  split
  · rename_i h
    rw [UInt64.lt_iff_toNat_lt] at h
    omega
  · rename_i h
    rw [UInt64.lt_iff_toNat_lt] at h
    omega

theorem toNat_add_of_lt {a b : UInt64} (h : a.toNat + b.toNat < 2 ^ 64) :
    (a + b).toNat = a.toNat + b.toNat := by
  rw [UInt64.toNat_add, Nat.mod_eq_of_lt h]

/-- The sum wraps once. -/
theorem toNat_add_of_ge {a b : UInt64} (h : 2 ^ 64 ≤ a.toNat + b.toNat) :
    (a + b).toNat = a.toNat + b.toNat - 2 ^ 64 := by
  have ha := a.toNat_lt
  have hb := b.toNat_lt
  rw [UInt64.toNat_add]
  omega

end Xtream
