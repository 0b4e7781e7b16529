import Mathlib.Logic.Function.Iterate
import Mathlib.Data.Nat.Find

/-!
# Fuel-bounded `while` loops

`While.run test body fuel s` is `while (test) { body }` from the state `s`: the body may fail
(`none`), fall through to the next test, or `break`. The fuel bounds the number of rounds, so a
result is `none` when the body fails or the fuel runs out. More fuel never changes a result
(`run_mono`), hence a loop *ends* when some fuel gives a result, and the result does not depend on
the fuel (`run_unique`).

A loop whose body neither fails nor breaks (`While.pure f`) is a finite iteration of `f`:

* `run_pure_iff`: the results are exactly the iterates `f^[k] s` at which the test is false for the
  first time;
* `ends_pure_iff`: it ends iff some iterate makes the test false;
* `run_of_measure`: it ends when a measure goes down on the visited states.

Two loops whose rounds keep a relation end in related states (`run_rel`), and what the rounds keep
holds at the end (`run_inv`).
-/

namespace While

universe u

/-- What one round of the body does. -/
inductive Control (σ : Type u)
  | next (s : σ)
  | brk (s : σ)

/-- Two rounds end alike, in related states. -/
inductive Control.Rel {σ τ : Type u} (R : σ → τ → Prop) : Control σ → Control τ → Prop
  | next {s : σ} {t : τ} : R s t → Control.Rel R (.next s) (.next t)
  | brk {s : σ} {t : τ} : R s t → Control.Rel R (.brk s) (.brk t)

variable {σ : Type u}

/-- `while (test) { body }`, at most `fuel` rounds. -/
def run (test : σ → Bool) (body : σ → Option (Control σ)) : Nat → σ → Option σ
  | 0, s => if test s then none else some s
  | fuel + 1, s =>
    if test s then
      match body s with
      | none => none
      | some (.next s') => run test body fuel s'
      | some (.brk s') => some s'
    else some s

/-- A body that neither fails nor breaks. -/
def pure (f : σ → σ) : σ → Option (Control σ) := fun s => some (.next (f s))

/-- The loop ends from `s`: some fuel gives a result. -/
def Ends (test : σ → Bool) (body : σ → Option (Control σ)) (s : σ) : Prop :=
  ∃ fuel r, run test body fuel s = some r

/-- `t` stands at the loop test after some rounds of `f` from `s`. -/
def Visits (test : σ → Bool) (f : σ → σ) (s t : σ) : Prop :=
  ∃ k, t = f^[k] s ∧ ∀ j < k, test (f^[j] s) = true

variable {test : σ → Bool} {body body' : σ → Option (Control σ)} {f : σ → σ}

theorem run_of_not {s : σ} (h : test s = false) (fuel : Nat) : run test body fuel s = some s := by
  cases fuel <;> simp [run, h]

theorem run_mono {n m : Nat} (hnm : n ≤ m) {s r : σ} (h : run test body n s = some r) :
    run test body m s = some r := by
  induction n generalizing m s with
  | zero =>
    have ht : test s = false := by
      cases ht : test s <;> simp_all [run]
    rw [run_of_not ht] at h ⊢
    exact h
  | succ n ih =>
    obtain ⟨m, rfl⟩ : ∃ m', m = m' + 1 := ⟨m - 1, by omega⟩
    unfold run at h ⊢
    split at h
    · rename_i ht
      rw [if_pos ht]
      split at h
      · cases h
      · exact ih (by omega) h
      · exact h
    · rename_i ht
      rw [if_neg ht]
      exact h

/-- What more fuel does not change does not depend on the fuel. -/
theorem unique_of_mono {α : Type u} {f : Nat → Option α}
    (hmono : ∀ {n m : Nat} {r : α}, n ≤ m → f n = some r → f m = some r) {n m : Nat} {r r' : α}
    (h : f n = some r) (h' : f m = some r') : r = r' := by
  have h1 := hmono (Nat.le_max_left n m) h
  have h2 := hmono (Nat.le_max_right n m) h'
  rw [h1] at h2
  exact Option.some.inj h2

/-- Two computations in a row never return iff the first one does not, or the second one does not
from where the first one ends. -/
theorem never_bind_iff {α β : Type u} {f : Nat → Option α} {g : Nat → α → Option β}
    (hf : ∀ {n m : Nat} {r : α}, n ≤ m → f n = some r → f m = some r)
    (hg : ∀ {a : α} {n m : Nat} {r : β}, n ≤ m → g n a = some r → g m a = some r) :
    (∀ n, (f n).bind (g n) = none) ↔
      (∀ n, f n = none) ∨ ∃ n a, f n = some a ∧ ∀ m, g m a = none := by
  constructor
  · intro h
    by_cases hnever : ∀ n, f n = none
    · exact Or.inl hnever
    · obtain ⟨n, hn⟩ := not_forall.mp hnever
      obtain ⟨a, ha⟩ := Option.ne_none_iff_exists'.mp hn
      refine Or.inr ⟨n, a, ha, fun m => Option.eq_none_iff_forall_ne_some.mpr fun r hr => ?_⟩
      have hboth := h (max n m)
      rw [hf (Nat.le_max_left n m) ha, Option.bind_some, hg (Nat.le_max_right n m) hr] at hboth
      cases hboth
  · rintro (hnever | ⟨n, a, ha, hnever⟩) m
    · rw [hnever m, Option.bind_none]
    · cases hm : f m with
      | none => rfl
      | some a' =>
        rw [Option.bind_some, unique_of_mono hf hm ha]
        exact hnever m

/-- The result of a loop does not depend on the fuel. -/
theorem run_unique {n m : Nat} {s r r' : σ} (h : run test body n s = some r)
    (h' : run test body m s = some r') : r = r' :=
  unique_of_mono (f := fun n => run test body n s) (fun hnm h => run_mono hnm h) h h'

/-- Two bodies that agree where the test holds give the same loop. -/
theorem run_congr (h : ∀ s, test s = true → body s = body' s) (fuel : Nat) (s : σ) :
    run test body fuel s = run test body' fuel s := by
  induction fuel generalizing s with
  | zero => rfl
  | succ n ih =>
    unfold run
    by_cases ht : test s = true
    · rw [if_pos ht, if_pos ht, h s ht]
      cases body' s with
      | none => rfl
      | some c => cases c <;> simp [ih]
    · rw [if_neg ht, if_neg ht]

/-- A map of states that the test and the body do not see through. -/
theorem run_map (g : σ → σ) (htest : ∀ s, test (g s) = test s)
    (hbody : ∀ s, body (g s) = (body s).map fun
      | .next s' => .next (g s')
      | .brk s' => .brk (g s')) (fuel : Nat) (s : σ) :
    run test body fuel (g s) = (run test body fuel s).map g := by
  induction fuel generalizing s with
  | zero =>
    unfold run
    rw [htest]
    split <;> rfl
  | succ n ih =>
    unfold run
    rw [htest, hbody]
    split
    · cases body s with
      | none => rfl
      | some c =>
        cases c with
        | next s' => exact ih s'
        | brk s' => rfl
    · rfl

/-- Two loops in step: their rounds keep a relation between the states. -/
theorem run_rel {τ : Type u} {R : σ → τ → Prop} {test' : τ → Bool}
    {body' : τ → Option (Control τ)} (htest : ∀ s t, R s t → test s = test' t)
    (hbody : ∀ s t, R s t → test s = true → Option.Rel (Control.Rel R) (body s) (body' t))
    (fuel : Nat) {s : σ} {t : τ} (h : R s t) :
    Option.Rel R (run test body fuel s) (run test' body' fuel t) := by
  induction fuel generalizing s t with
  | zero =>
    unfold run
    rw [htest s t h]
    split
    · exact .none
    · exact .some h
  | succ n ih =>
    unfold run
    rw [← htest s t h]
    split
    · rename_i ht
      have hround := hbody s t h ht
      revert hround
      generalize body s = c
      generalize body' t = c'
      intro hround
      cases hround with
      | none => exact .none
      | some hc =>
        cases hc with
        | next hs => exact ih hs
        | brk hs => exact .some hs
    · exact .some h

theorem rel_some_left {τ : Type u} {R : σ → τ → Prop} {s : σ} {r : Option τ}
    (h : Option.Rel R (some s) r) : ∃ t, r = some t ∧ R s t := by
  cases h with
  | some h => exact ⟨_, rfl, h⟩

theorem rel_some_right {τ : Type u} {R : σ → τ → Prop} {t : τ} {r : Option σ}
    (h : Option.Rel R r (some t)) : ∃ s, r = some s ∧ R s t := by
  cases h with
  | some h => exact ⟨_, rfl, h⟩

/-- A function between the states that the test and the rounds do not see through. -/
theorem run_pure_map {τ : Type u} {test' : τ → Bool} {f' : τ → τ} (g : σ → τ)
    (htest : ∀ s, test s = test' (g s)) (hround : ∀ s, g (f s) = f' (g s)) (fuel : Nat) (s : σ) :
    (run test (pure f) fuel s).map g = run test' (pure f') fuel (g s) := by
  have hrel := @run_rel σ test (pure f) τ (fun s t => g s = t) test' (pure f')
    (fun s t h => h ▸ htest s) (fun s t h _ => .some (.next (h ▸ hround s))) fuel s (g s) rfl
  cases hs : run test (pure f) fuel s with
  | some r =>
    rw [hs] at hrel
    obtain ⟨t, ht, rfl⟩ := rel_some_left hrel
    exact ht.symm
  | none =>
    rw [hs] at hrel
    cases ht : run test' (pure f') fuel (g s) with
    | none => rfl
    | some t =>
      rw [ht] at hrel
      cases hrel

theorem run_pure_succ {s : σ} (h : test s = true) (fuel : Nat) :
    run test (pure f) (fuel + 1) s = run test (pure f) fuel (f s) := by
  rw [run, if_pos h]
  rfl

/-- The results of a loop without failure and `break`: the first iterate that fails the test, when
the fuel covers it. -/
theorem run_pure_iff {fuel : Nat} {s r : σ} :
    run test (pure f) fuel s = some r ↔
      ∃ k ≤ fuel, r = f^[k] s ∧ test r = false ∧ ∀ j < k, test (f^[j] s) = true := by
  induction fuel generalizing s with
  | zero =>
    constructor
    · intro h
      have ht : test s = false := by cases ht : test s <;> simp_all [run]
      rw [run_of_not ht] at h
      cases h
      exact ⟨0, Nat.le_refl _, rfl, ht, fun j hj => absurd hj (by omega)⟩
    · rintro ⟨k, hk, rfl, ht, -⟩
      obtain rfl : k = 0 := by omega
      exact run_of_not ht 0
  | succ n ih =>
    by_cases ht : test s = true
    · rw [run_pure_succ ht, ih]
      constructor
      · rintro ⟨k, hk, rfl, hf, hj⟩
        refine ⟨k + 1, by omega, rfl, hf, fun j hjk => ?_⟩
        cases j with
        | zero => exact ht
        | succ j => exact hj j (by omega)
      · rintro ⟨k, hk, rfl, hf, hj⟩
        cases k with
        | zero => rw [Function.iterate_zero, id, ht] at hf; cases hf
        | succ k => exact ⟨k, by omega, rfl, hf, fun j hjk => hj (j + 1) (by omega)⟩
    · have ht : test s = false := by simpa using ht
      rw [run_of_not ht]
      constructor
      · intro h
        cases h
        exact ⟨0, by omega, rfl, ht, fun j hj => absurd hj (by omega)⟩
      · rintro ⟨k, -, rfl, hf, hj⟩
        cases k with
        | zero => rfl
        | succ k => have := hj 0 (by omega); simp_all

/-- A loop without failure and `break` ends iff some iterate fails the test. -/
theorem ends_pure_iff {s : σ} : Ends test (pure f) s ↔ ∃ k, test (f^[k] s) = false := by
  constructor
  · rintro ⟨fuel, r, h⟩
    obtain ⟨k, -, rfl, ht, -⟩ := run_pure_iff.mp h
    exact ⟨k, ht⟩
  · intro h
    classical
    refine ⟨Nat.find h, _, run_pure_iff.mpr ⟨_, Nat.le_refl _, rfl, Nat.find_spec h, fun j hj => ?_⟩⟩
    simpa using Nat.find_min h hj

theorem Visits.refl (s : σ) : Visits test f s s := ⟨0, rfl, fun j hj => absurd hj (by omega)⟩

/-- The visited states from the second round on are those visited from the first result. -/
theorem Visits.of_step {s t : σ} (hs : test s = true) (h : Visits test f (f s) t) :
    Visits test f s t := by
  obtain ⟨k, rfl, hj⟩ := h
  refine ⟨k + 1, rfl, fun j hjk => ?_⟩
  cases j with
  | zero => exact hs
  | succ j => exact hj j (by omega)

/-- Fuel as large as the measure is enough. -/
theorem run_of_measure (μ : σ → Nat) {s : σ}
    (hμ : ∀ t, Visits test f s t → test t = true → μ (f t) < μ t) {fuel : Nat}
    (hfuel : μ s ≤ fuel) : ∃ r, run test (pure f) fuel s = some r := by
  induction fuel generalizing s with
  | zero =>
    by_cases ht : test s = true
    · have hlt := hμ s (Visits.refl s) ht
      omega
    · exact ⟨s, run_of_not (by simpa using ht) 0⟩
  | succ n ih =>
    by_cases ht : test s = true
    · have hlt := hμ s (Visits.refl s) ht
      rw [run_pure_succ ht]
      exact ih (fun t hv => hμ t (hv.of_step ht)) (by omega)
    · exact ⟨s, run_of_not (by simpa using ht) _⟩

/-- **An invariant of the rounds** holds at the end of the loop. -/
theorem run_inv {I : σ → Prop} (hnext : ∀ s t, I s → body s = some (.next t) → I t)
    (hbrk : ∀ s t, I s → body s = some (.brk t) → I t) {fuel : Nat} {s r : σ} (hs : I s)
    (h : run test body fuel s = some r) : I r := by
  induction fuel generalizing s with
  | zero =>
    unfold run at h
    split at h
    · cases h
    · cases h
      exact hs
  | succ n ih =>
    unfold run at h
    split at h
    · split at h
      · cases h
      · rename_i t ht
        exact ih (hnext s t hs ht) h
      · rename_i t ht
        cases h
        exact hbrk s _ hs ht
    · cases h
      exact hs

/-! ## A loop that is still running -/

/-- The state after `fuel` rounds, or at the end of the loop. -/
def reach (test : σ → Bool) (body : σ → Option (Control σ)) : Nat → σ → σ
  | 0, s => s
  | fuel + 1, s =>
    if test s then
      match body s with
      | none => s
      | some (.next s') => reach test body fuel s'
      | some (.brk s') => s'
    else s

theorem reach_of_run {fuel : Nat} {s r : σ} (h : run test body fuel s = some r) :
    reach test body fuel s = r := by
  induction fuel generalizing s with
  | zero =>
    unfold run at h
    split at h
    · cases h
    · exact Option.some.inj h
  | succ n ih =>
    unfold run at h
    unfold reach
    split at h
    · rename_i ht
      rw [if_pos ht]
      split at h
      · cases h
      · exact ih h
      · exact Option.some.inj h
    · rename_i ht
      rw [if_neg ht]
      exact Option.some.inj h

end While
