import Xtream.Core.Basic
import Xtream.Lib.MachineInt

/-!
# Strict integers (`src/core/types/int.h`)

`StrictInt<T>` for the integer types `T` of 8 to 64 bits. `+`, `-`, `*` and the unary `-` use the
overflow builtins, which are defined for all operands; `/` and `%` assert a divisor other than 0,
and `/` alone that it is not the smallest value divided by -1; the shifts assert nothing.

* `checked_eq_ok`: for signed types the result is exact;
* `add_ofUInt64`, `sub_ofUInt64`: `StrictInt<uint64_t>` is `UInt64`;
* `traps_iff`: when an operator asserts before undefined behaviour.
-/

namespace Xtream

open MachineInt (IntType)

structure StrictInt (t : IntType) where
  value : Int
  inRange : t.InRange value

namespace StrictInt

variable {t : IntType}

/-- Conversion to the type. -/
def ofInt (t : IntType) (n : Int) : StrictInt t := ⟨t.wrap n, t.wrap_inRange n⟩

/-- What `__builtin_add_overflow` and its siblings leave: the result, and whether it is not the
exact one. -/
def overflowing (t : IntType) (n : Int) : StrictInt t × Bool := (ofInt t n, !decide (t.InRange n))

/-- The overflow is asserted for the signed types only. -/
def checked (t : IntType) (n : Int) : Except Fault (StrictInt t) :=
  let r := overflowing t n
  if t.signed && r.2 then .error .assertion else .ok r.1

/-- The value of an expression, converted to the type. -/
def ofExpr (t : IntType) : Option Int → Except Fault (StrictInt t)
  | none => .error .undefined
  | some n => .ok (ofInt t n)

def add (a b : StrictInt t) : Except Fault (StrictInt t) := checked t (a.value + b.value)

def sub (a b : StrictInt t) : Except Fault (StrictInt t) := checked t (a.value - b.value)

def mul (a b : StrictInt t) : Except Fault (StrictInt t) := checked t (a.value * b.value)

def neg (a : StrictInt t) : Except Fault (StrictInt t) := checked t (0 - a.value)

def div (a b : StrictInt t) : Except Fault (StrictInt t) :=
  if b.value = 0 then .error .assertion
  else if t.signed ∧ a.value = t.minValue ∧ b.value = -1 then .error .assertion
  else ofExpr t (MachineInt.div t.promoted a.value b.value)

def rem (a b : StrictInt t) : Except Fault (StrictInt t) :=
  if b.value = 0 then .error .assertion
  else ofExpr t (MachineInt.rem t.promoted a.value b.value)

def shl (a b : StrictInt t) : Except Fault (StrictInt t) :=
  ofExpr t (MachineInt.shl t.promoted a.value b.value)

def shr (a b : StrictInt t) : Except Fault (StrictInt t) :=
  ofExpr t (MachineInt.shr t.promoted a.value b.value)

/-- The arithmetic operators. -/
inductive Operator
  | add
  | sub
  | mul
  | div
  | rem
  | neg
  | shl
  | shr
  deriving DecidableEq, Repr

/-- The operator on its operands; the unary `-` has one only. -/
def Operator.apply : Operator → StrictInt t → StrictInt t → Except Fault (StrictInt t)
  | add, a, b => a.add b
  | sub, a, b => a.sub b
  | mul, a, b => a.mul b
  | div, a, b => a.div b
  | rem, a, b => a.rem b
  | neg, a, _ => a.neg
  | shl, a, b => a.shl b
  | shr, a, b => a.shr b

/-! ## The overflow builtins -/

/-- The result is exact for the signed types, and wraps for the others. -/
theorem checked_eq_ok {n : Int} {c : StrictInt t} :
    checked t n = .ok c ↔ c.value = if t.signed then n else t.wrap n := by
  obtain ⟨value, hc⟩ := c
  unfold checked overflowing ofInt
  cases hsigned : t.signed with
  | false => simp [eq_comm]
  | true =>
    by_cases h : t.InRange n
    · simp [h, IntType.wrap_eq h, eq_comm]
    · simp only [h, decide_false, Bool.not_false, Bool.and_self, if_true]
      refine iff_of_false (by simp) fun heq => h ?_
      exact heq ▸ hc

theorem checked_ne_undefined (t : IntType) (n : Int) : checked t n ≠ .error .undefined := by
  unfold checked
  dsimp only
  split <;> simp

theorem ofExpr_ne_undefined {n : Option Int} :
    ofExpr t n ≠ .error .undefined ↔ n.isSome = true := by
  cases n <;> simp [ofExpr]

/-! ## `u64` -/

/-- `StrictInt<uint64_t>`. -/
def ofUInt64 (n : UInt64) : StrictInt ⟨false, .w64⟩ :=
  ⟨n.toNat, Int.natCast_nonneg _, by
    have := n.toNat_lt
    show (n.toNat : Int) ≤ 2 ^ 64 - 1
    omega⟩

theorem add_ofUInt64 (a b : UInt64) : (ofUInt64 a).add (ofUInt64 b) = .ok (ofUInt64 (a + b)) := by
  refine checked_eq_ok.mpr ?_
  show ((a + b).toNat : Int) = ((a.toNat : Int) + b.toNat) % 2 ^ 64
  rw [UInt64.toNat_add]
  push_cast
  rfl

theorem sub_ofUInt64 (a b : UInt64) : (ofUInt64 a).sub (ofUInt64 b) = .ok (ofUInt64 (a - b)) := by
  refine checked_eq_ok.mpr ?_
  show ((a - b).toNat : Int) = ((a.toNat : Int) - b.toNat) % 2 ^ 64
  have ha := a.toNat_lt
  have hb := b.toNat_lt
  rw [UInt64.toNat_sub]
  omega

/-! ## What asserts before undefined behaviour -/

/-- The smallest value of a type of at least 32 bits, divided by -1. -/
def QuotientOverflows (a b : StrictInt t) : Prop :=
  t.signed = true ∧ 32 ≤ t.bits ∧ a.value = t.minValue ∧ b.value = -1

/-- The operator is defined or asserts. -/
def Operator.Traps (op : Operator) (a b : StrictInt t) : Prop :=
  op.apply a b ≠ .error .undefined

/-- The quotient of promoted operands. -/
theorem promoted_overflows_iff (a b : StrictInt t) :
    (t.promoted.signed = true ∧ a.value = t.promoted.minValue ∧ b.value = -1) ↔
      a.QuotientOverflows b := by
  obtain ⟨value, hlo, hhi⟩ := a
  unfold QuotientOverflows
  obtain ⟨signed, width⟩ := t
  -- a promoted operand is far from the smallest value of 32 bits
  cases signed <;> cases width <;>
    simp [IntType.promoted, IntType.minValue, IntType.maxValue, IntType.bits,
      MachineInt.Width.bits] at hlo hhi ⊢ <;> omega

/-- **When an operator asserts before undefined behaviour**: `%` does not check the smallest value
divided by -1, and the shifts do not check the count. -/
theorem traps_iff (op : Operator) (a b : StrictInt t) : op.Traps a b ↔
    match op with
    | .rem => ¬ a.QuotientOverflows b
    | .shl | .shr => 0 ≤ b.value ∧ b.value < t.promoted.bits
    | _ => True := by
  have ha := IntType.inRange_promoted a.inRange
  have hb := IntType.inRange_promoted b.inRange
  unfold Operator.Traps Operator.apply
  cases op with
  | div =>
    refine iff_true_intro ?_
    simp only [div]
    split
    · simp
    · rename_i hzero
      split
      · simp
      · rename_i hover
        rw [ofExpr_ne_undefined, MachineInt.div_isSome_iff ha hb, promoted_overflows_iff]
        exact ⟨hzero, fun h => hover ⟨h.1, h.2.2⟩⟩
  | rem =>
    simp only [rem]
    split
    · rename_i hzero
      refine iff_of_true (by simp) fun h => ?_
      have hneg := h.2.2.2
      rw [hzero] at hneg
      cases hneg
    · rename_i hzero
      rw [ofExpr_ne_undefined, MachineInt.rem_isSome_iff ha hb, promoted_overflows_iff]
      exact and_iff_right hzero
  | shl => exact ofExpr_ne_undefined.trans MachineInt.shl_isSome_iff
  | shr => exact ofExpr_ne_undefined.trans MachineInt.shr_isSome_iff
  | _ => exact iff_true_intro (checked_ne_undefined t _)

/-- The smallest `i32` `%` -1, and a shift of an `i32` by 32. -/
theorem undefined_reached : ∃ a b c d : StrictInt ⟨true, .w32⟩,
    ¬ Operator.rem.Traps a b ∧ ¬ Operator.shl.Traps c d :=
  ⟨⟨-2 ^ 31, by decide⟩, ⟨-1, by decide⟩, ⟨1, by decide⟩, ⟨32, by decide⟩,
    fun h => h rfl, fun h => h rfl⟩

end StrictInt

end Xtream
