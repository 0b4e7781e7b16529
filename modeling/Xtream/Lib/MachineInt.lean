import Mathlib.Algebra.Ring.Int.Defs
import Mathlib.Algebra.Ring.Nat
import Mathlib.Data.Int.Order.Basic

/-!
# Machine integers

The integer types of 8, 16, 32 and 64 bits, with the arithmetic of a language in which operands
narrower than 32 bits are promoted to the signed type of 32 bits, and in which some expressions are
undefined. An expression is evaluated in the promoted type: nothing stands for undefined behaviour.

* `wrap_inRange`, `wrap_eq`: conversion to a type;
* `div_isSome_iff`, `rem_isSome_iff`, `shl_isSome_iff`, `shr_isSome_iff`: what is defined.
-/

namespace MachineInt

inductive Width
  | w8
  | w16
  | w32
  | w64
  deriving DecidableEq, Repr

def Width.bits : Width → Nat
  | w8 => 8
  | w16 => 16
  | w32 => 32
  | w64 => 64

structure IntType where
  signed : Bool
  width : Width
  deriving DecidableEq, Repr

namespace IntType

def bits (t : IntType) : Nat := t.width.bits

def minValue (t : IntType) : Int := if t.signed then -2 ^ (t.bits - 1) else 0

def maxValue (t : IntType) : Int := if t.signed then 2 ^ (t.bits - 1) - 1 else 2 ^ t.bits - 1

/-- The type has the value. -/
def InRange (t : IntType) (n : Int) : Prop := t.minValue ≤ n ∧ n ≤ t.maxValue

instance (t : IntType) (n : Int) : Decidable (t.InRange n) := inferInstanceAs (Decidable (_ ∧ _))

/-- Conversion to the type: the value that is equal modulo `2 ^ bits`. -/
def wrap (t : IntType) (n : Int) : Int :=
  if t.signed then Int.bmod n (2 ^ t.bits) else n % 2 ^ t.bits

/-- The type of an operand after promotion. -/
def promoted (t : IntType) : IntType :=
  match t.width with
  | .w8 | .w16 => ⟨true, .w32⟩
  | _ => t

variable {t : IntType} {n a b : Int}

theorem wrap_inRange (t : IntType) (n : Int) : t.InRange (t.wrap n) := by
  obtain ⟨signed, width⟩ := t
  unfold InRange minValue maxValue wrap bits
  cases signed <;> cases width <;> simp [Width.bits, Int.bmod] <;> omega

/-- Conversion keeps the values of the type. -/
theorem wrap_eq (h : t.InRange n) : t.wrap n = n := by
  obtain ⟨signed, width⟩ := t
  unfold InRange minValue maxValue bits at h
  unfold wrap bits
  cases signed <;> cases width <;> simp [Width.bits, Int.bmod] at h ⊢ <;> omega

theorem minValue_signed (h : t.signed = true) : t.minValue = -t.maxValue - 1 := by
  simp only [minValue, maxValue, h, if_true]
  omega

theorem minValue_unsigned (h : t.signed = false) : t.minValue = 0 := by
  simp [minValue, h]

/-- Promotion keeps the value. -/
theorem inRange_promoted (h : t.InRange n) : t.promoted.InRange n := by
  obtain ⟨signed, width⟩ := t
  unfold InRange minValue maxValue bits at h
  unfold InRange minValue maxValue bits
  cases signed <;> cases width <;> simp [Width.bits, promoted] at h ⊢ <;> omega

end IntType

/-! ## Expressions -/

section

/-- `a / b`: undefined for a divisor of 0, and where the type does not have the quotient. -/
def div (t : IntType) (a b : Int) : Option Int :=
  if b ≠ 0 ∧ t.InRange (a.tdiv b) then some (a.tdiv b) else none

/-- `a % b`: undefined where `a / b` is. -/
def rem (t : IntType) (a b : Int) : Option Int :=
  if b ≠ 0 ∧ t.InRange (a.tdiv b) then some (a.tmod b) else none

/-- `a << count`: undefined for a negative count, and from the width of the type on. -/
def shl (t : IntType) (a count : Int) : Option Int :=
  if 0 ≤ count ∧ count < t.bits then some (t.wrap (a * 2 ^ count.toNat)) else none

/-- `a >> count`, which rounds down. -/
def shr (t : IntType) (a count : Int) : Option Int :=
  if 0 ≤ count ∧ count < t.bits then some (a / 2 ^ count.toNat) else none

variable {t : IntType} {a b count : Int}

/-- A divisor other than -1 makes the quotient no further from 0 than the largest value. -/
theorem natAbs_tdiv_le (h : t.InRange a) (hb : b ≠ -1) (hsigned : t.signed = true) :
    t.InRange (a.tdiv b) := by
  have hmin := IntType.minValue_signed hsigned
  obtain ⟨hlo, hhi⟩ := h
  have habs := Int.natAbs_tdiv a b
  rcases Nat.lt_or_ge b.natAbs 2 with hlt | hge
  · -- the divisor is 0 or 1
    have hb' : b = 0 ∨ b = 1 := by omega
    rcases hb' with rfl | rfl
    · rw [Int.tdiv_zero]
      exact ⟨by omega, by omega⟩
    · rw [Int.tdiv_one]
      exact ⟨hlo, hhi⟩
  · have hhalf : a.natAbs / b.natAbs ≤ a.natAbs / 2 := Nat.div_le_div_left hge (by decide)
    have hq : (a.tdiv b).natAbs ≤ a.natAbs / 2 := habs ▸ hhalf
    exact ⟨by omega, by omega⟩

/-- The quotient is a value of the type, but for the smallest value divided by -1. -/
theorem tdiv_inRange_iff (ha : t.InRange a) (hb : t.InRange b) :
    t.InRange (a.tdiv b) ↔ ¬ (t.signed = true ∧ a = t.minValue ∧ b = -1) := by
  cases hsigned : t.signed with
  | true =>
    have hmin := IntType.minValue_signed hsigned
    by_cases hneg : b = -1
    · subst hneg
      have hquot : a.tdiv (-1) = -a := by rw [Int.tdiv_neg, Int.tdiv_one]
      obtain ⟨hlo, hhi⟩ := ha
      rw [hquot]
      constructor
      · rintro ⟨-, hle⟩ ⟨-, heq, -⟩
        omega
      · intro hne
        have hne' : a ≠ t.minValue := fun heq => hne ⟨rfl, heq, rfl⟩
        exact ⟨by omega, by omega⟩
    · exact iff_of_true (natAbs_tdiv_le ha hneg hsigned) fun h => hneg h.2.2
  | false =>
    refine iff_of_true ?_ fun h => Bool.false_ne_true h.1
    have hmin := IntType.minValue_unsigned hsigned
    obtain ⟨hlo, hhi⟩ := ha
    have hnonneg : 0 ≤ a.tdiv b := Int.tdiv_nonneg (hmin ▸ hlo) (hmin ▸ hb.1)
    have hle := Int.natAbs_tdiv_le_natAbs a b
    exact ⟨by omega, by omega⟩

theorem div_isSome_iff (ha : t.InRange a) (hb : t.InRange b) : (div t a b).isSome = true ↔
    b ≠ 0 ∧ ¬ (t.signed = true ∧ a = t.minValue ∧ b = -1) := by
  rw [← tdiv_inRange_iff ha hb]
  unfold div
  split <;> simp_all

theorem rem_isSome_iff (ha : t.InRange a) (hb : t.InRange b) : (rem t a b).isSome = true ↔
    b ≠ 0 ∧ ¬ (t.signed = true ∧ a = t.minValue ∧ b = -1) := by
  rw [← tdiv_inRange_iff ha hb]
  unfold rem
  split <;> simp_all

theorem shl_isSome_iff : (shl t a count).isSome = true ↔ 0 ≤ count ∧ count < t.bits := by
  unfold shl
  split <;> simp_all

theorem shr_isSome_iff : (shr t a count).isSome = true ↔ 0 ≤ count ∧ count < t.bits := by
  unfold shr
  split <;> simp_all

end

end MachineInt
