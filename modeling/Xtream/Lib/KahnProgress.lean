import Mathlib
import Xtream.Lib.KahnNetwork

/-!
# A network that can finish never stops before

When a network of deterministic processes has one complete run, no run of it takes more steps, and a
run that is not complete can go on: the processes cannot wait for each other, and no schedule, fair
or not, goes on for ever.

* `length_le`: no run is longer than the complete one;
* `exists_next`: a run that has done less can take the first step of the complete one that it has
  not taken.
-/

namespace KahnNetwork

universe u

variable {V C O I P : Type u}

/-- The first element of a list with which a condition on its initial parts fails. -/
theorem exists_first_failure {A : Type u} {Q : List A → Prop} (hnil : Q []) {as : List A}
    (has : ¬ Q as) : ∃ before a after, as = before ++ a :: after ∧ Q before ∧ ¬ Q (before ++ [a]) := by
  induction as using List.reverseRecOn with
  | nil => exact absurd hnil has
  | append_singleton as a ih =>
    by_cases h : Q as
    · exact ⟨as, a, [], rfl, h, has⟩
    · obtain ⟨before, b, after, rfl, hbefore, hb⟩ := ih h
      exact ⟨before, b, after ++ [a], by simp, hbefore, hb⟩

variable [DecidableEq C] [DecidableEq I] {step : P → Act V C O → P → Prop} {writer reader : C → I}
  {start end₁ end₂ : I → P} {t u : List (I × Act V C O)}

omit [DecidableEq C] in
/-- A run in which each process has done an initial part of another one is not longer. -/
theorem length_le (hpart : ∀ i, localActs i t <+: localActs i u) : t.length ≤ u.length := by
  have hcount : ∀ (x : List (I × Act V C O)) (i : I),
      (x.map Prod.fst).count i = (localActs i x).length := by
    intro x i
    rw [localActs, List.length_map, ← List.countP_eq_length_filter, List.count, List.countP_map]
    exact List.countP_congr fun y _ => by simp
  have hsub : (t.map Prod.fst).Subperm (u.map Prod.fst) := by
    rw [List.subperm_ext_iff]
    intro i _
    rw [hcount, hcount]
    exact (hpart i).length_le
  simpa using hsub.length_le

/-- What a read of the complete run has returned, it returns in every run that has done what came
before it, and no more of the same process. -/
theorem returns_of_initial (hu : Consistent u) (hwired : Wired writer reader u)
    (hsealed : ∀ i, Sealed (localActs i u)) (hpart : ∀ i, localActs i t <+: localActs i u)
    {before after : List (I × Act V C O)} {i : I} {c : C} {v : Option V}
    (hsplit : u = before ++ (i, .read c v) :: after)
    (hbefore : ∀ j, localActs j before <+: localActs j t)
    (hi : localActs i before = localActs i t) : Returns (acts t) c v := by
  have hret := hu before i c v after hsplit
  have hreader : i = reader c := hwired.read i c v (by simp [hsplit])
  have hpart_before : ∀ j, localActs j before <+: localActs j u := fun j =>
    (hbefore j).trans (hpart j)
  have hwired_t := hwired.of_initial hpart
  have hwired_before := hwired.of_initial hpart_before
  have hreads : reads c (acts t) = reads c (acts before) := by
    rw [← hwired_t.reads_local, ← hwired_before.reads_local, ← hreader, hi]
  have hwrites : writes c (acts before) <+: writes c (acts t) := by
    rw [← hwired_t.writes_local, ← hwired_before.writes_local]
    exact writes_initial c (hbefore _)
  cases v with
  | some x =>
    show (writes c (acts t))[(reads c (acts t)).length]? = some x
    rw [hreads]
    exact getElem?_of_initial hwrites hret
  | none =>
    obtain ⟨hclose, hlen⟩ := hret
    have hclose_t : .close c ∈ acts t := by
      have hmem := (hbefore (writer c)).subset (hwired_before.close_local hclose)
      exact List.mem_map.mpr ⟨_, mem_localActs.mp hmem, rfl⟩
    have hall : writes c (acts t) = writes c (acts before) :=
      (writes_closed hwired hsealed hpart hclose_t).symm.trans
        (writes_closed hwired hsealed hpart_before hclose)
    exact ⟨hclose_t, by rw [hreads, hlen, hall]⟩

/-- **A run that has done less can go on**: some process can take its next step of the complete
run, and if this is a read, the channel returns what it has returned there. -/
theorem exists_next (hu : Consistent u) (hwired : Wired writer reader u)
    (hsealed : ∀ i, Sealed (localActs i u)) (hpart : ∀ i, localActs i t <+: localActs i u)
    (hless : ∃ i, localActs i t ≠ localActs i u) :
    ∃ i a, localActs i t ++ [a] <+: localActs i u ∧
      ∀ c v, a = .read c v → Returns (acts t) c v := by
  have hfail : ¬ ∀ j, localActs j u <+: localActs j t := fun hall => by
    obtain ⟨i, hi⟩ := hless
    exact hi ((hpart i).eq_of_length_le (hall i).length_le)
  obtain ⟨before, ⟨i, a⟩, after, hsplit, hbefore, hnext⟩ :=
    exists_first_failure (Q := fun x => ∀ j, localActs j x <+: localActs j t)
      (fun j => List.nil_prefix) hfail
  -- the step that fails is not among those of its process
  have hi : ¬ localActs i before ++ [a] <+: localActs i t := fun h => hnext fun j => by
    by_cases hij : i = j
    · subst hij
      rwa [localActs_append, localActs_self]
    · rw [localActs_append, localActs_other hij, List.append_nil]
      exact hbefore j
  have hu_i : localActs i before ++ [a] <+: localActs i u :=
    ⟨localActs i after, by
      rw [hsplit, localActs_append, ← List.singleton_append (x := (i, a)), localActs_append,
        localActs_self, List.append_assoc]⟩
  have heq : localActs i before = localActs i t := by
    rcases List.prefix_or_prefix_of_prefix hu_i (hpart i) with h | h
    · exact absurd h hi
    · rcases List.prefix_concat_iff.mp h with h | h
      · exact absurd (h ▸ List.prefix_refl _) hi
      · exact (hbefore i).eq_of_length_le h.length_le
  refine ⟨i, a, heq ▸ hu_i, fun c v ha => ?_⟩
  subst ha
  exact returns_of_initial hu hwired hsealed hpart hsplit hbefore heq

/-- A network that can finish finishes under every schedule: no run is longer than the complete
one, and one in which some process has done less can go on. -/
theorem bounded_and_live (hdet : Deterministic step) (hu : Consistent u)
    (hwired : Wired writer reader u) (hsealed : ∀ i, Sealed (localActs i u))
    (hsteps_u : ∀ i, Steps step (start i) (localActs i u) (end₂ i))
    (hcomplete : ∀ i a p, ¬ step (end₂ i) a p) (ht : Consistent t)
    (hsteps_t : ∀ i, Steps step (start i) (localActs i t) (end₁ i)) :
    t.length ≤ u.length ∧ ((∀ i, end₁ i = end₂ i) ∨ ∃ i a p, step (end₁ i) a p ∧
      ∀ c v, a = .read c v → Returns (acts t) c v) := by
  have hpart := local_initial hdet hu hwired hsealed hsteps_u hcomplete ht hsteps_t
  refine ⟨length_le hpart, ?_⟩
  by_cases hless : ∃ i, localActs i t ≠ localActs i u
  · right
    obtain ⟨i, a, ⟨rest, hrest⟩, hret⟩ := exists_next hu hwired hsealed hpart hless
    have hsteps := hsteps_u i
    rw [← hrest, List.append_assoc] at hsteps
    obtain ⟨p, hp, hmore⟩ := Steps.append_iff.mp hsteps
    obtain rfl := Steps.unique hdet (hsteps_t i) hp
    obtain ⟨q, hq, -⟩ := Steps.cons_iff.mp hmore
    exact ⟨i, a, q, hq, hret⟩
  · left
    intro i
    have heq : localActs i t = localActs i u := by
      by_contra h
      exact hless ⟨i, h⟩
    exact Steps.unique hdet (heq ▸ hsteps_t i) (hsteps_u i)

end KahnNetwork
