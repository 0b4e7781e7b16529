import Mathlib
import Xtream.Lib.KahnNetwork

/-!
# The runs of a system

* `Steps.simulate`: a system with more detail, seen through a function of its states: each of its
  steps is a step of the other system, or no step at all;
* `Steps.simulate_seen`: one step may stand for several, when both show the same;
* `Steps.cost`: what a run costs, when each step pays for itself;
* `Steps.reaches`: a run to a goal, when there is one to a state of lower rank.
-/

namespace KahnNetwork

universe u v

variable {P A : Type u} {Q B : Type v} {step : P → A → P → Prop} {step' : Q → B → Q → Prop}

/-- What a step looks like from outside: the step with its label, or nothing. -/
def Shows (step' : Q → B → Q → Prop) (q : Q) (b : Option B) (q' : Q) : Prop :=
  match b with
  | some b => step' q b q'
  | none => q' = q

/-- **A run of the detailed system is a run of the other one**, when each step shows as a step or as
nothing where an invariant holds. -/
theorem Steps.simulate {f : P → Q} {label : A → Option B} {I : P → Prop}
    (hinv : ∀ p a q, I p → step p a q → I q)
    (hstep : ∀ p a q, I p → step p a q → Shows step' (f p) (label a) (f q)) {p q : P} {as : List A}
    (hp : I p) (h : Steps step p as q) : Steps step' (f p) (as.filterMap label) (f q) := by
  induction h with
  | nil p => exact .nil _
  | @cons p r q a as hfirst _ ih =>
    have hshows := hstep p a r hp hfirst
    have hrest := ih (hinv p a r hp hfirst)
    cases ha : label a with
    | none =>
      rw [ha] at hshows
      rw [List.filterMap_cons_none ha, ← show f r = f p from hshows]
      exact hrest
    | some b =>
      rw [ha] at hshows
      rw [List.filterMap_cons_some ha]
      exact .cons hshows hrest

/-- **A run seen through what it shows**, when each step of the detailed system stands for steps of
the other one that show the same. -/
theorem Steps.simulate_seen {C : Type u} {f : P → Q} {seen : A → List C} {seen' : B → List C}
    {I : P → Prop} (hinv : ∀ p a q, I p → step p a q → I q)
    (hstep : ∀ p a q, I p → step p a q →
      ∃ bs, Steps step' (f p) bs (f q) ∧ bs.flatMap seen' = seen a) {p q : P} {as : List A}
    (hp : I p) (h : Steps step p as q) :
    ∃ bs, Steps step' (f p) bs (f q) ∧ bs.flatMap seen' = as.flatMap seen := by
  induction h with
  | nil p => exact ⟨[], .nil _, rfl⟩
  | @cons p r q a as hfirst _ ih =>
    obtain ⟨bs, hbs, hseen⟩ := hstep p a r hp hfirst
    obtain ⟨cs, hcs, hrest⟩ := ih (hinv p a r hp hfirst)
    exact ⟨bs ++ cs, hbs.append hcs, by rw [List.flatMap_append, hseen, hrest, List.flatMap_cons]⟩

/-- **The cost of a run**, when each step costs no more than it lowers the potential, apart from what
it brings in. -/
theorem Steps.cost {I : P → Prop} {potential : P → Nat} {cost gain : A → Nat}
    (hinv : ∀ p a q, I p → step p a q → I q)
    (hstep : ∀ p a q, I p → step p a q → cost a + potential q ≤ potential p + gain a) {p q : P}
    {as : List A} (hp : I p) (h : Steps step p as q) :
    (as.map cost).sum + potential q ≤ potential p + (as.map gain).sum := by
  induction h with
  | nil p => simp
  | @cons p r q a as hfirst _ ih =>
    have hpay := hstep p a r hp hfirst
    have hrest := ih (hinv p a r hp hfirst)
    simp only [List.map_cons, List.sum_cons]
    omega

/-- **A run to a goal**, when there is a run to the goal or to a state of lower rank. -/
theorem Steps.reaches {I : Nat → P → Prop} {G : P → Prop}
    (hrank : ∀ k p, I k p → G p ∨ ∃ as q j, Steps step p as q ∧ I j q ∧ j < k) {k : Nat} {p : P}
    (hp : I k p) : ∃ as q j, Steps step p as q ∧ I j q ∧ G q := by
  induction k using Nat.strongRecOn generalizing p with
  | ind k ih =>
    rcases hrank k p hp with hgoal | ⟨as, r, j, hsteps, hr, hlt⟩
    · exact ⟨[], p, k, .nil p, hp, hgoal⟩
    · obtain ⟨bs, q, l, hrest, hq, hgoal⟩ := ih j hlt hr
      exact ⟨as ++ bs, q, l, hsteps.append hrest, hq, hgoal⟩

end KahnNetwork
