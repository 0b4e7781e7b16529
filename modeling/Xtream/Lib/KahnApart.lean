import Mathlib
import Xtream.Lib.KahnNetwork

/-!
# Processes that use no channel

A deterministic process that reads nothing has one complete run, and whatever else a network does,
it takes the steps of this run in order.

* `Steps.initial`, `Steps.goes_on`: an unfinished run is an initial part of the complete one, and
  the next step is there;
* `exists_tagged`: the complete runs of several processes as one run.
-/

namespace KahnNetwork

universe u

variable {V C O P : Type u} {step : P → Act V C O → P → Prop} {p q r : P} {as bs : List (Act V C O)}

/-- **One complete run**: each run of the process is an initial part of it. -/
theorem Steps.initial (hdet : Deterministic step) (h : Steps step p as q) (h' : Steps step p bs r)
    (hreads : ∀ b ∈ bs, b.channel? = none) (hend : ∀ a x, ¬ step r a x) : as <+: bs := by
  induction h generalizing bs with
  | nil p => exact List.nil_prefix
  | cons hstep _ ih =>
    cases h' with
    | nil => exact absurd hstep (hend _ _)
    | cons hstep' hrest' =>
      obtain ⟨hb, hbs⟩ := List.forall_mem_cons.mp hreads
      rcases hdet.act _ _ _ _ _ hstep hstep' with rfl | ⟨c, v, w, -, rfl⟩
      · rw [← hdet.state _ _ _ _ hstep hstep'] at hrest'
        exact (List.prefix_cons_inj _).mpr (ih hrest' hbs)
      · cases hb

/-- **A run that is not complete can go on.** -/
theorem Steps.goes_on (hdet : Deterministic step) (h : Steps step p as q) (h' : Steps step p bs r)
    (hinitial : as <+: bs) : as = bs ∧ q = r ∨ ∃ b x, b ∈ bs ∧ step q b x := by
  obtain ⟨rest, rfl⟩ := hinitial
  obtain ⟨q', hq', hrest⟩ := Steps.append_iff.mp h'
  obtain rfl := hq'.unique hdet h
  cases hrest with
  | nil => exact Or.inl ⟨(List.append_nil as).symm, rfl⟩
  | cons hstep _ => exact Or.inr ⟨_, _, by simp, hstep⟩

variable {I : Type u} [DecidableEq I]

theorem localActs_tagged (i j : I) (as : List (Act V C O)) :
    localActs i (as.map (j, ·)) = if j = i then as else [] := by
  induction as with
  | nil => simp [localActs]
  | cons a as ih =>
    rw [List.map_cons, ← List.singleton_append, localActs_append, ih]
    by_cases hj : j = i
    · subst hj
      simp [localActs_self]
    · simp [localActs_other hj, hj]

/-- Runs of several processes, one behind the other. -/
theorem exists_tagged (runs : I → List (Act V C O)) (is : List I) (hnodup : is.Nodup) :
    ∃ u : List (I × Act V C O), ∀ i, localActs i u = if i ∈ is then runs i else [] := by
  induction is with
  | nil => exact ⟨[], fun i => by simp [localActs]⟩
  | cons j is ih =>
    obtain ⟨hj, hnodup⟩ := List.nodup_cons.mp hnodup
    obtain ⟨u, hu⟩ := ih hnodup
    refine ⟨(runs j).map (j, ·) ++ u, fun i => ?_⟩
    rw [localActs_append, localActs_tagged, hu]
    by_cases hij : j = i
    · subst hij
      simp [hj]
    · simp [hij, Ne.symm hij]

end KahnNetwork
