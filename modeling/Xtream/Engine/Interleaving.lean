import Xtream.Engine.LinearChain
import Xtream.Engine.Roots
import Xtream.Engine.Threads

/-!
# All interleavings of the pipelines

The threads of a job take their steps in any order. A read of an empty open channel is no step: the
thread waits.

* `Job.steps_spec`: in every run the reads return what the channels hold, and each thread takes its
  own steps;
* `Job.exists_run`: running the pipelines one after the other is a run.
-/

namespace Xtream

open KahnNetwork

/-- The effect of a step on the channels. -/
inductive Effect : Channels → Action → Channels → Prop
  | read {chs : Channels} {ch : ChannelId} {v : Option (Event Record)} {c : InputChannel}
      (h : (chs ch).read = some (v, c)) : Effect chs (.read ch v) (Function.update chs ch c)
  | write (chs : Channels) (ch : ChannelId) (e : Event Record) :
      Effect chs (.write ch e) (perform chs (.write ch e))
  | close (chs : Channels) (ch : ChannelId) :
      Effect chs (.close ch) (perform chs (.closeChannel ch))
  | out (chs : Channels) (o : Option Output) : Effect chs (.out o) chs

theorem effect_action (chs : Channels) (o : Output) : Effect chs o.action (perform chs o) := by
  cases o with
  | write ch e => exact .write chs ch e
  | closeChannel ch => exact .close chs ch
  | _ => exact .out chs _

/-- The threads of a job, with the channels between them. -/
structure Job (U : Type) where
  threads : Nat → Thread U
  channels : Channels

/-- The calls of a run, in order. -/
def calls (t : List (Nat × Action)) : List Output := (acts t).filterMap call?

@[simp] theorem calls_append (t t' : List (Nat × Action)) : calls (t ++ t') = calls t ++ calls t' := by
  simp [calls]

namespace Job

variable {U : Type}

/-- One thread for each pipeline, and new channels. -/
def start (pipelines : List (Chain U)) : Job U :=
  ⟨fun i => (pipelines[i]?).elim ⟨[], [], .closing 0⟩ Thread.start, fun _ => {}⟩

/-- One thread takes a step. -/
inductive Step : Job U → Nat × Action → Job U → Prop
  | thread {s : Job U} {i : Nat} {a : Action} {th : Thread U} {chs : Channels}
      (hth : Thread.Step (s.threads i) a th) (hchs : Effect s.channels a chs) :
      Step s (i, a) ⟨Function.update s.threads i th, chs⟩

/-- All pipelines have finished. -/
def Finished (s : Job U) : Prop := ∀ i, (s.threads i).Finished

/-! ## What every run does -/

/-- The channels hold what the steps have left. -/
theorem holds_step {as : List Action} {chs chs' : Channels} {a : Action}
    (h : ∀ ch, Holds as ch (chs ch).queue (chs ch).closed) (ha : Effect chs a chs') :
    (∀ ch v, a = .read ch v → Returns as ch v) ∧
      ∀ ch, Holds (as ++ [a]) ch (chs' ch).queue (chs' ch).closed := by
  cases ha with
  | @read ch v c hread =>
    have hch := h ch
    have hboth : Returns as ch v ∧ Holds (as ++ [.read ch v]) ch c.queue c.closed := by
      cases v with
      | some e =>
        unfold InputChannel.read at hread
        split at hread
        · rename_i hq
          cases hread
          rw [hq] at hch
          exact hch.read
        · split at hread <;> cases hread
      | none =>
        obtain ⟨hclosed, hq, rfl⟩ := InputChannel.read_none hread
        rw [hclosed, hq] at hch ⊢
        exact hch.read_end
    refine ⟨fun ch' v' heq => ?_, fun ch' => ?_⟩
    · cases heq
      exact hboth.1
    · by_cases heq : ch' = ch
      · subst heq
        rw [Function.update_self]
        exact hboth.2
      · rw [Function.update_of_ne heq]
        exact (h ch').other fun hc => heq (Option.some.inj hc).symm
  | write ch e =>
    refine ⟨fun _ _ heq => (by cases heq), fun ch' => ?_⟩
    by_cases heq : ch' = ch
    · subst heq
      simp only [perform, Function.update_self]
      exact (h ch').write e
    · simp only [perform, Function.update_of_ne heq]
      exact (h ch').other fun hc => heq (Option.some.inj hc).symm
  | close ch =>
    refine ⟨fun _ _ heq => (by cases heq), fun ch' => ?_⟩
    by_cases heq : ch' = ch
    · subst heq
      simp only [perform, Function.update_self]
      exact (h ch').close
    · simp only [perform, Function.update_of_ne heq]
      exact (h ch').other fun hc => heq (Option.some.inj hc).symm
  | out o =>
    exact ⟨fun _ _ heq => (by cases heq), fun ch => (h ch).other fun hc => (by cases hc)⟩

/-- What every run does: the reads return what the channels hold, and each thread takes its own
steps. -/
theorem steps_spec {s₀ s : Job U} (hnew : s₀.channels = fun _ => {}) {t : List (Nat × Action)}
    (h : Steps Step s₀ t s) : Consistent t ∧
      (∀ ch, Holds (acts t) ch (s.channels ch).queue (s.channels ch).closed) ∧
      ∀ i, Steps Thread.Step (s₀.threads i) (localActs i t) (s.threads i) := by
  induction t using List.reverseRecOn generalizing s with
  | nil =>
    cases h
    refine ⟨fun before _ _ _ _ hsplit => ?_, fun ch => ?_, fun i => .nil _⟩
    · cases before <;> cases hsplit
    · rw [hnew]
      exact .start ch
  | append_singleton t x ih =>
    obtain ⟨p, hp, hlast⟩ := Steps.append_iff.mp h
    obtain ⟨q, hq, hnil⟩ := Steps.cons_iff.mp hlast
    cases hnil
    obtain ⟨hcons, hholds, hlocal⟩ := ih hp
    cases hq with
    | @thread i a th chs hth hchs =>
      obtain ⟨hret, hholds'⟩ := holds_step hholds hchs
      refine ⟨hcons.snoc hret, ?_, fun j => ?_⟩
      · rw [acts_append]
        exact hholds'
      · rw [localActs_append]
        by_cases hj : j = i
        · subst hj
          rw [localActs_self]
          simp only [Function.update_self]
          exact (hlocal j).append (.single hth)
        · rw [localActs_other (Ne.symm hj), List.append_nil]
          simp only [Function.update_of_ne hj]
          exact hlocal j

/-! ## The pipelines one after the other -/

/-- There is a run that makes these calls. -/
def Runs (s : Job U) (outs : List Output) (s' : Job U) : Prop :=
  ∃ t, calls t = outs ∧ Steps Step s t s'

theorem Runs.refl (s : Job U) : Runs s [] s := ⟨[], rfl, .nil s⟩

theorem Runs.trans {s₁ s₂ s₃ : Job U} {outs outs' : List Output} (h : Runs s₁ outs s₂)
    (h' : Runs s₂ outs' s₃) : Runs s₁ (outs ++ outs') s₃ := by
  obtain ⟨t, rfl, ht⟩ := h
  obtain ⟨t', rfl, ht'⟩ := h'
  exact ⟨t ++ t', calls_append t t', ht.append ht'⟩

theorem Runs.call {s s' : Job U} {i : Nat} {o : Output} (h : Step s (i, o.action) s') :
    Runs s [o] s' := ⟨[(i, o.action)], by simp [calls, acts], .single h⟩

theorem Runs.silent {s s' : Job U} {i : Nat} {a : Action} (ha : call? a = none)
    (h : Step s (i, a) s') : Runs s [] s' := ⟨[(i, a)], by simp [calls, acts, ha], .single h⟩

section

variable {threads : Nat → Thread U} {i : Nat} {chs : Channels}

theorem step_update {th th' : Thread U} {a : Action} {chs' : Channels}
    (h : Thread.Step th a th') (hchs : Effect chs a chs') :
    Step ⟨Function.update threads i th, chs⟩ (i, a) ⟨Function.update threads i th', chs'⟩ := by
  have hth : Thread.Step (Function.update threads i th i) a th' := by
    rw [Function.update_self]
    exact h
  have hstep := @Step.thread U ⟨Function.update threads i th, chs⟩ i a th' chs' hth hchs
  simp only [Function.update_idem] at hstep
  exact hstep

/-- The pending calls. -/
theorem runs_calls (ops : Chain U) (outs : List Output) (phase : Phase) :
    Runs ⟨Function.update threads i ⟨ops, outs, phase⟩, chs⟩ outs
      ⟨Function.update threads i ⟨ops, [], phase⟩, outs.foldl perform chs⟩ := by
  induction outs generalizing chs with
  | nil => exact .refl _
  | cons o outs ih =>
    have hfirst := @step_update U threads i chs _ _ _ _ (.call ops o outs phase)
      (effect_action chs o)
    exact (Runs.call hfirst).trans ih

/-- One pull. -/
theorem runs_pull {fuel : Nat} {ops : Chain U} {r : Chain U × Channels × List Output}
    (h : Pipeline.pull fuel ops chs = some r) :
    Runs ⟨Function.update threads i ⟨ops, [], .pulling⟩, chs⟩ r.2.2
      ⟨Function.update threads i ⟨r.1, [], Thread.phaseAfter r.1⟩, r.2.1⟩ := by
  cases ops with
  | nil => cases h
  | cons op rest =>
    rw [Pipeline.pull_cons, Option.bind_eq_some_iff] at h
    obtain ⟨⟨v, chs'⟩, hread, h⟩ := h
    obtain ⟨s, hs, rfl⟩ := Option.map_eq_some_iff.mp h
    suffices hpull : Runs ⟨Function.update threads i ⟨op :: rest, [], .pulling⟩, chs⟩ []
        ⟨Function.update threads i ⟨s.1, s.2, Thread.phaseAfter s.1⟩, chs'⟩ from
      hpull.trans (runs_calls s.1 s.2 (Thread.phaseAfter s.1))
    unfold Chain.read at hread
    cases hinput : Chain.inputChannel (op :: rest) with
    | none =>
      rw [show ((op :: rest).head?.bind PhysicalOperator.inputChannel) = none from hinput] at hread
      cases hread
      exact .silent rfl (step_update (.pull (List.cons_ne_nil _ _) hinput hs) (.out _ _))
    | some ch =>
      rw [show ((op :: rest).head?.bind PhysicalOperator.inputChannel) = some ch from hinput]
        at hread
      obtain ⟨⟨v', c⟩, hc, heq⟩ := Option.map_eq_some_iff.mp hread
      cases heq
      exact .silent rfl (step_update (.read hinput hs) (.read hc))

/-- The loop of `run`. -/
theorem runs_loop {fuel rounds : Nat} {ops : Chain U} {r : Chain U × Channels × List Output}
    (h : Pipeline.runLoop fuel rounds ops chs = some r) :
    Runs ⟨Function.update threads i ⟨ops, [], .pulling⟩, chs⟩ r.2.2
      ⟨Function.update threads i ⟨r.1, [], .closing 0⟩, r.2.1⟩ := by
  induction rounds generalizing ops chs r with
  | zero => cases h
  | succ rounds ih =>
    rw [Pipeline.runLoop_succ, Option.bind_eq_some_iff] at h
    obtain ⟨s, hs, h⟩ := h
    have hpull := @runs_pull U threads i chs fuel ops s hs
    by_cases hdone : Chain.isDone s.1 = true
    · rw [if_pos hdone] at h
      cases h
      rwa [Thread.phaseAfter, if_pos hdone] at hpull
    · rw [if_neg hdone] at h
      obtain ⟨r', hr', rfl⟩ := Option.map_eq_some_iff.mp h
      rw [Thread.phaseAfter, if_neg hdone] at hpull
      exact hpull.trans (ih hr')

/-- The closes of `run`. -/
theorem runs_closeFrom {fuel n k : Nat} {ops : Chain U} {r : Chain U × List Output}
    (h : Chain.closeFrom fuel n k ops = some r) (hk : k + n = ops.length) :
    Runs ⟨Function.update threads i ⟨ops, [], .closing k⟩, chs⟩ r.2
      ⟨Function.update threads i ⟨r.1, [], .closing (k + n)⟩, r.2.foldl perform chs⟩ := by
  induction n generalizing k ops chs r with
  | zero =>
    cases h
    exact .refl _
  | succ n ih =>
    obtain ⟨s, hs, h⟩ := Option.bind_eq_some_iff.mp h
    obtain ⟨r', hr', h⟩ := Option.bind_eq_some_iff.mp h
    cases h
    have hlen := Chain.closeAt_length hs
    have hfirst := @step_update U threads i chs _ _ _ _ (.close (by omega) hs) (.out chs none)
    have hrest := @ih (s.2.foldl perform chs) (k + 1) s.1 r' hr' (by omega)
    rw [Nat.add_right_comm k 1 n] at hrest
    rw [List.foldl_append]
    exact ((Runs.silent rfl hfirst).trans (runs_calls s.1 s.2 (.closing (k + 1)))).trans hrest

/-- `run` of one pipeline. -/
theorem runs_run {fuel : Nat} {ops : Chain U} {r : Chain U × Channels × List Output}
    (h : Pipeline.run fuel ops chs = some r) :
    ∃ th : Thread U, th.Finished ∧
      Runs ⟨Function.update threads i (.start ops), chs⟩ r.2.2
        ⟨Function.update threads i th, r.2.1⟩ := by
  obtain ⟨s, hs, h⟩ := Option.bind_eq_some_iff.mp h
  obtain ⟨r', hr', h⟩ := Option.bind_eq_some_iff.mp h
  cases h
  have hclose := @runs_closeFrom U threads i s.2.1 fuel s.1.length 0 s.1 r' hr' (Nat.zero_add _)
  rw [Nat.zero_add] at hclose
  exact ⟨_, ⟨rfl, congrArg Phase.closing (Chain.closeFrom_length hr').symm⟩,
    (runs_loop hs).trans hclose⟩

end

/-- The pipelines one after the other are a run. -/
theorem runs_inOrder {fuel : Nat} {pipelines : List (Chain U)} {chs : Channels}
    {outs : List Output} (h : ExecutionGraph.runInOrder fuel pipelines chs = some outs)
    {threads : Nat → Thread U} {i : Nat} (hthreads : ∀ j, threads (i + j) =
      (pipelines[j]?).elim ⟨[], [], .closing 0⟩ Thread.start) :
    ∃ s, Runs ⟨threads, chs⟩ outs s ∧ (∀ j, i ≤ j → (s.threads j).Finished) ∧
      ∀ j, j < i → s.threads j = threads j := by
  induction pipelines generalizing chs outs threads i with
  | nil =>
    cases h
    refine ⟨_, .refl _, fun j hj => ?_, fun _ _ => rfl⟩
    obtain ⟨k, rfl⟩ := Nat.exists_eq_add_of_le hj
    show (threads (i + k)).Finished
    rw [hthreads]
    exact ⟨rfl, rfl⟩
  | cons ops rest ih =>
    obtain ⟨r, hr, h⟩ := Option.bind_eq_some_iff.mp h
    obtain ⟨outs', houts', h⟩ := Option.bind_eq_some_iff.mp h
    cases h
    have hfirst : threads i = .start ops := hthreads 0
    obtain ⟨th, hth, hrun⟩ := @runs_run U threads i chs fuel ops r hr
    rw [← hfirst, Function.update_eq_self] at hrun
    obtain ⟨s, hs, hfin, hkeep⟩ := @ih r.2.1 outs' houts' (Function.update threads i th) (i + 1)
      fun j => by
        rw [Function.update_of_ne (by omega), Nat.add_assoc, Nat.add_comm 1 j, hthreads]
        rfl
    refine ⟨s, hrun.trans hs, fun j hj => ?_, fun j hj => ?_⟩
    · rcases Nat.eq_or_lt_of_le hj with rfl | hlt
      · rw [hkeep i (Nat.lt_succ_self i), Function.update_self]
        exact hth
      · exact hfin j hlt
    · rw [hkeep j (by omega), Function.update_of_ne (by omega)]

/-- Running the pipelines one after the other is a run that finishes. -/
theorem exists_run {fuel : Nat} {pipelines : List (Chain U)} {outs : List Output}
    (h : ExecutionGraph.runInOrder fuel pipelines (fun _ => {}) = some outs) :
    ∃ s, Runs (start pipelines) outs s ∧ s.Finished := by
  obtain ⟨s, hs, hfin, -⟩ := @runs_inOrder U fuel pipelines _ outs h (start pipelines).threads 0
    fun j => by rw [Nat.zero_add]; rfl
  exact ⟨s, hs, fun i => hfin i (Nat.zero_le i)⟩

end Job

end Xtream
