import Mathlib.Data.Int.GCD
import Mathlib.Data.Int.ModEq
import Mathlib.Tactic.Ring

/-!
# A counter that wraps

`value start step modulus k` is a counter after `k` additions of `step` modulo `modulus`. From a
`start` that the greatest common divisor `g` of `step` and `modulus` divides, the values are
multiples of `g` (`dvd_value`), the largest is `modulus - g` (`value_le`), and the counter reaches it
again and again (`exists_value_eq`).
-/

namespace ModularCounter

/-- The counter after `k` steps. -/
def value (start step modulus k : Nat) : Nat := (start + k * step) % modulus

variable {start step modulus : Nat}

theorem value_succ (k : Nat) :
    value start step modulus (k + 1) = (value start step modulus k + step) % modulus := by
  unfold value
  rw [Nat.mod_add_mod, Nat.succ_mul, Nat.add_assoc]

theorem value_eq_of_lt {k : Nat} (h : start + k * step < modulus) :
    value start step modulus k = start + k * step := Nat.mod_eq_of_lt h

theorem dvd_value (h : Nat.gcd step modulus ∣ start) (k : Nat) :
    Nat.gcd step modulus ∣ value start step modulus k := by
  have hstep : Nat.gcd step modulus ∣ start + k * step :=
    Nat.dvd_add h (Dvd.dvd.mul_left (Nat.gcd_dvd_left _ _) k)
  exact (Nat.dvd_mod_iff (Nat.gcd_dvd_right _ _)).mpr hstep

/-- A multiple of a divisor of the modulus, below the modulus, is at most one divisor below it. -/
theorem le_sub_of_dvd {g n m : Nat} (hn : g ∣ n) (hm : g ∣ m) (hlt : n < m) : n ≤ m - g := by
  obtain ⟨a, rfl⟩ := hn
  obtain ⟨b, rfl⟩ := hm
  have hab : a + 1 ≤ b := Nat.lt_of_mul_lt_mul_left hlt
  have := Nat.mul_le_mul_left g hab
  rw [Nat.mul_succ] at this
  omega

theorem value_le (hm : 0 < modulus) (h : Nat.gcd step modulus ∣ start) (k : Nat) :
    value start step modulus k ≤ modulus - Nat.gcd step modulus :=
  le_sub_of_dvd (dvd_value h k) (Nat.gcd_dvd_right _ _) (Nat.mod_lt _ hm)

/-- The counter reaches its largest value, after any number of steps. -/
theorem exists_value_eq (hm : 0 < modulus) (h : Nat.gcd step modulus ∣ start) (n : Nat) :
    ∃ k, n ≤ k ∧ value start step modulus k = modulus - Nat.gcd step modulus := by
  obtain ⟨c, hc⟩ := h
  have hg : Nat.gcd step modulus ≤ modulus := Nat.gcd_le_right _ hm
  have hgpos : 0 < Nat.gcd step modulus := Nat.gcd_pos_of_pos_right _ hm
  have hm' : (0 : Int) < modulus := by omega
  -- Bezout's coefficient of `step`, scaled to go from `start` to `-g`
  have hbez := Nat.gcd_eq_gcd_ab step modulus
  let z : Int := Nat.gcdA step modulus * (-1 - c)
  have hz : (start : Int) + z * step =
      -(Nat.gcd step modulus : Int) + modulus * (Nat.gcdB step modulus * (1 + c)) := by
    have hstart : (start : Int) = Nat.gcd step modulus * c := by
      rw [← Nat.cast_mul, ← hc]
    have hstep : (step : Int) * Nat.gcdA step modulus =
        Nat.gcd step modulus - modulus * Nat.gcdB step modulus := by
      rw [hbez]
      ring
    calc (start : Int) + z * step
        = Nat.gcd step modulus * c + step * Nat.gcdA step modulus * (-1 - c) := by
          rw [hstart]
          ring
      _ = _ := by
          rw [hstep]
          ring
  -- a natural number of steps with the same residue, large enough
  have hk0 := Int.emod_nonneg z hm'.ne'
  refine ⟨(z % modulus).toNat + n * modulus,
    (Nat.le_mul_of_pos_right n hm).trans (Nat.le_add_left _ _), ?_⟩
  have hcast : (((z % modulus).toNat + n * modulus : Nat) : Int) ≡ z [ZMOD modulus] := by
    rw [Nat.cast_add, Int.toNat_of_nonneg hk0, Nat.cast_mul]
    have h1 : z % modulus + n * modulus ≡ z % modulus [ZMOD modulus] := by
      simp [Int.ModEq]
    exact h1.trans (Int.mod_modEq z modulus)
  have hval : ((start + ((z % modulus).toNat + n * modulus) * step : Nat) : Int) ≡
      ((modulus - Nat.gcd step modulus : Nat) : Int) [ZMOD modulus] := by
    have h1 : ((start + ((z % modulus).toNat + n * modulus) * step : Nat) : Int) ≡
        start + z * step [ZMOD modulus] := by
      rw [Nat.cast_add, Nat.cast_mul]
      exact (hcast.mul_right _).add_left _
    refine h1.trans ?_
    rw [hz, Nat.cast_sub hg]
    simp [Int.ModEq, Int.sub_eq_add_neg, Int.add_comm]
  have hmod := (Int.natCast_modEq_iff.mp hval : _ ≡ _ [MOD modulus])
  unfold value
  rw [hmod, Nat.mod_eq_of_lt (by omega)]

end ModularCounter
