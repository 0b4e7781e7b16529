import Xtream.Engine.ProgramMeaning

/-!
# Stop requests (`src/engine/pipeline.h`, `src/engine/slot.cpp`)

`Pipeline::stop` clears `running_`, and the loop of `Pipeline::run` ends at its next test: the
operators are closed as at the end of the input. Requests may come at any time, to any of the
pipelines of a job.

* `Job.StopStep`: a step of a job whose pipelines may be stopped;
* `Thread.ran_source`, `Thread.ran_channelSource`: what a thread has done that may have been stopped;
* `stopped_means`: a job that has been stopped computes its meaning on initial parts of its inputs.
-/

namespace Xtream

open KahnNetwork

variable {U : Type}

/-! ## Steps with stop requests -/

/-- A step of a thread that may be stopped. -/
inductive Thread.StopStep : Thread U → Action → Thread U → Prop
  | step {th th' : Thread U} {a : Action} : Step th a th' → StopStep th a th'
  /-- The test of the loop after a stop request. -/
  | stop (ops : Chain U) : StopStep ⟨ops, [], .pulling⟩ (.out none) ⟨ops, [], .closing 0⟩

/-- A step of a job whose pipelines may be stopped. -/
inductive Job.StopStep : Job U → Nat × Action → Job U → Prop
  | thread {s : Job U} {i : Nat} {a : Action} {th : Thread U} {chs : Channels}
      (hth : Thread.StopStep (s.threads i) a th) (hchs : Effect s.channels a chs) :
      StopStep s (i, a) ⟨Function.update s.threads i th, chs⟩

namespace Thread

variable {th th' : Thread U} {as : List Action}

/-- Behind the loop there is nothing to stop. -/
theorem steps_of_closing (hphase : th.phase ≠ .pulling) (h : Steps StopStep th as th') :
    Steps Step th as th' := by
  have hkeep : ∀ (p : Thread U) a q, p.phase ≠ .pulling → Step p a q → q.phase ≠ .pulling := by
    intro p a q hp hstep
    cases hstep with
    | call => exact hp
    | pull => exact absurd rfl hp
    | read => exact absurd rfl hp
    | close => exact fun hphase => by cases hphase
  induction h with
  | nil p => exact .nil p
  | cons hstep _ ih =>
    cases hstep with
    | step hstep => exact .cons hstep (ih (hkeep _ _ _ hphase hstep))
    | stop ops => exact absurd rfl hphase

/-- A thread that finishes makes its pending calls first. -/
theorem stopSteps_pending (hth : th.Finished) {ops : Chain U} {outs : List Output} {phase : Phase}
    (h : Steps StopStep ⟨ops, outs, phase⟩ as th) :
    ∃ as', as = outs.map Output.action ++ as' ∧ Steps StopStep ⟨ops, [], phase⟩ as' th := by
  induction outs generalizing as with
  | nil => exact ⟨as, rfl, h⟩
  | cons o outs ih =>
    cases h with
    | nil => cases hth.1
    | cons hstep hrest =>
      cases hstep with
      | step hstep =>
        cases hstep with
        | call =>
          obtain ⟨as', rfl, h'⟩ := ih hrest
          exact ⟨as', rfl, h'⟩

/-- A step that may be a stop of the thread of a pipeline. -/
theorem Fits.stopStep {ss : List Shape} (hlast : LastWrites ss) {a : Action} (hth : Fits ss th)
    (h : StopStep th a th') : Fits ss th' ∧ Allows ss a := by
  cases h with
  | step hstep =>
    obtain ⟨hfits, hallows, -⟩ := hth.step hlast hstep
    exact ⟨hfits, hallows⟩
  | stop ops =>
    exact ⟨⟨hth.shapes, [], none, rfl, List.forall_mem_nil _, fun _ h => by cases h⟩, trivial⟩

/-! ## What a thread has done -/

/-- The steps of a thread make the calls of a chain on these elements. -/
def Ran (ops : Chain U) (xs : List StreamElement) (as : List Action) : Prop :=
  ∃ m, ∀ fuel, m ≤ fuel → Chain.runChain fuel ops xs = some (as.filterMap call?)

/-- The chain has been given some elements, and then others. -/
theorem Ran.append {ops : Chain U} {xs ys : List StreamElement} {m : Nat}
    {r : Chain U × List Output} (hfeed : Chain.feed m ops xs = some r) {as as' : List Action}
    (hcalls : as.filterMap call? = r.2) (h : Ran r.1 ys as') : Ran ops (xs ++ ys) (as ++ as') := by
  obtain ⟨l, hrun⟩ := h
  refine ⟨max m l, fun fuel hfuel => ?_⟩
  have hmore : Chain.feed fuel ops xs = some r :=
    Chain.deliver_mono (fun ops y t ht => Chain.execute_mono (by omega) ht) hfeed
  have hrest := hrun fuel (by omega)
  rw [Chain.runChain_eq] at hrest ⊢
  obtain ⟨s, hs, hclose⟩ := Option.bind_eq_some_iff.mp hrest
  obtain ⟨t, ht, hcalls'⟩ := Option.map_eq_some_iff.mp hclose
  rw [Chain.feed_append, hmore, Option.bind_some, hs, Option.map_some, Option.bind_some, ht,
    Option.map_some, List.filterMap_append, hcalls, ← hcalls', List.append_assoc]

/-- The closes, when the root sends these elements at its own; nothing is read any more. -/
theorem ran_close (hth : th.Finished) {root root' : PhysicalOperator U} {rest : Chain U}
    {xs : List StreamElement} (hroot : ∀ fuel, root.close fuel = some (root', xs.map .next))
    (h : Steps StopStep ⟨root :: rest, [], .closing 0⟩ as th) :
    Ran rest xs as ∧ ∀ ch, reads ch as = [] := by
  obtain ⟨m, r, hclose, hcalls, hreads⟩ :=
    closeFrom_of_steps hth (steps_of_closing (fun h => by cases h) h) (Nat.zero_add _)
  refine ⟨⟨m, fun fuel hfuel => ?_⟩, hreads⟩
  have hall : Chain.closeAll fuel (root :: rest) = some r := hclose fuel hfuel
  rw [Chain.closeAll_cons, hroot, Option.bind_some] at hall
  obtain ⟨s, hs, hall⟩ := Option.bind_eq_some_iff.mp hall
  obtain ⟨t, ht, rfl⟩ := Option.map_eq_some_iff.mp hall
  rw [Chain.runChain_eq, show Chain.feed fuel rest xs = some s from hs, Option.bind_some, ht,
    Option.map_some, ← hcalls]

/-- A thread in its loop is stopped, or pulls once and makes the calls of the pull. -/
theorem steps_pulling (hth : th.Finished) {ops : Chain U}
    (h : Steps StopStep ⟨ops, [], .pulling⟩ as th) :
    (∃ as', as = .out none :: as' ∧ Steps StopStep ⟨ops, [], .closing 0⟩ as' th) ∨
      ∃ a v m r as', as = a :: (r.2.map Output.action ++ as') ∧
        Chain.execute m v ops Pipeline.dummy = some r ∧
        Steps StopStep ⟨r.1, [], phaseAfter r.1⟩ as' th ∧
        ((Chain.inputChannel ops = none ∧ v = none ∧ a = .out none) ∨
          ∃ ch, Chain.inputChannel ops = some ch ∧ a = .read ch v) := by
  cases h with
  | nil => cases hth.2
  | cons hstep hrest =>
    cases hstep with
    | stop => exact Or.inl ⟨_, rfl, hrest⟩
    | step hstep =>
      cases hstep with
      | pull _ hinput hr =>
        obtain ⟨as', rfl, hmore⟩ := stopSteps_pending hth hrest
        exact Or.inr ⟨_, _, _, _, as', rfl, hr, hmore, Or.inl ⟨hinput, rfl, rfl⟩⟩
      | read hinput hr =>
        obtain ⟨as', rfl, hmore⟩ := stopSteps_pending hth hrest
        exact Or.inr ⟨_, _, _, _, as', rfl, hr, hmore, Or.inr ⟨_, hinput, rfl⟩⟩

/-- What a pull does, when the root sends these elements. -/
theorem execute_sends {root root' : PhysicalOperator U} {rest : Chain U} {m : Nat}
    {v : Option (Event Record)} {xs : List StreamElement}
    (hroot : root.execute m (!rest.isEmpty) v Pipeline.dummy = some (root', xs.map .next))
    {r : Chain U × List Output} (h : Chain.execute m v (root :: rest) Pipeline.dummy = some r) :
    ∃ t, Chain.feed m rest xs = some t ∧ r = (root' :: t.1, t.2) := by
  rw [Chain.execute_cons, hroot, Option.bind_some] at h
  obtain ⟨t, ht, rfl⟩ := Option.map_eq_some_iff.mp h
  exact ⟨t, ht, rfl⟩

section

variable {s : SourcePhysicalOperator U} {rest : Chain U}

open SourcePhysicalOperator (Yields finish)

theorem ran_source_close (hth : th.Finished)
    (h : Steps StopStep ⟨.source s :: rest, [], .closing 0⟩ as th) :
    Ran rest (elements (finish s [])) as :=
  (@ran_close U th as hth (.source s) (.source s.close.1) rest (elements s.close.2) (fun _ => rfl)
    h).1

/-- A source that may be stopped sends what it sends when its events end there. -/
theorem ran_source (hth : th.Finished) {es : List (Event Record)} (hdone : s.done = false)
    (hes : Yields s.func s.captured es)
    (h : Steps StopStep ⟨.source s :: rest, [], .pulling⟩ as th) :
    ∃ es', es' <+: es ∧ Ran rest (elements (finish s es')) as := by
  induction es generalizing s rest as with
  | nil =>
    rcases steps_pulling hth h with ⟨as', rfl, hrest⟩ | ⟨a, v, m, r, as', rfl, hr, hrest, hinput⟩
    · have hran := ran_source_close hth hrest
      exact ⟨[], List.prefix_refl _, hran⟩
    · obtain ⟨-, rfl, rfl⟩ | ⟨ch, hch, -⟩ := hinput
      · obtain ⟨t, ht, rfl⟩ := @execute_sends U _ _ _ m none (elements s.execute.2) rfl _ hr
        rw [SourcePhysicalOperator.execute_of_none hes] at ht hrest
        cases ht
        have hran := ran_source_close hth hrest
        rw [SourcePhysicalOperator.finish_congr] at hran
        exact ⟨[], List.prefix_refl _, hran⟩
      · cases hch
  | cons e es ih =>
    obtain ⟨he, hes⟩ := hes
    rcases steps_pulling hth h with ⟨as', rfl, hrest⟩ | ⟨a, v, m, r, as', rfl, hr, hrest, hinput⟩
    · have hran := ran_source_close hth hrest
      exact ⟨[], List.nil_prefix, hran⟩
    · obtain ⟨-, rfl, rfl⟩ | ⟨ch, hch, -⟩ := hinput
      · obtain ⟨t, ht, rfl⟩ := @execute_sends U _ _ _ m none (elements s.execute.2) rfl _ hr
        have hexec := SourcePhysicalOperator.execute_of_some he
        have hdone' : s.execute.1.done = false := by rw [hexec]; exact hdone
        rw [phaseAfter, if_neg (by simp [Chain.isDone, PhysicalOperator.isDone, hdone'])] at hrest
        obtain ⟨es', hinitial, hran⟩ := @ih _ s.execute.1 _ hdone'
          (by rw [hexec, (SourcePhysicalOperator.forward_func s e).1]; exact hes) hrest
        rw [hexec, SourcePhysicalOperator.finish_congr] at hran
        rw [hexec] at ht
        refine ⟨e :: es', List.cons_prefix_cons.mpr ⟨rfl, hinitial⟩, ?_⟩
        rw [finish, elements_append]
        exact Ran.append ht (filterMap_call?_action t.2) hran
      · cases hch

end

/-- At its end a channel source reads and sends nothing. -/
theorem ran_channelSource_close (hth : th.Finished) {c : ChannelId} {done : Bool} {rest : Chain U}
    (h : Steps StopStep ⟨.channelSource ⟨c, done⟩ :: rest, [], .closing 0⟩ as th) :
    Ran rest [] as ∧ ∀ ch, reads ch as = [] := ran_close hth (fun _ => rfl) h

/-- A channel source that may be stopped sends what has been read from the channel. -/
theorem ran_channelSource (hth : th.Finished) {c : ChannelId} {rest : Chain U} (hne : rest ≠ [])
    (h : Steps StopStep ⟨.channelSource ⟨c, false⟩ :: rest, [], .pulling⟩ as th) :
    Ran rest ((reads c as).map .event) as := by
  induction hn : as.length using Nat.strongRecOn generalizing rest as with
  | _ n ih =>
    rcases steps_pulling hth h with ⟨as', rfl, hrest⟩ | ⟨a, v, m, r, as', rfl, hr, hrest, hinput⟩
    · obtain ⟨hran, hreads⟩ := ran_channelSource_close hth hrest
      rw [← List.singleton_append, reads_append, hreads]
      exact hran
    · obtain ⟨hnone, -⟩ | ⟨ch, hch, rfl⟩ := hinput
      · cases hnone
      · cases hch
        have hnext : (!rest.isEmpty) = true := by simpa using hne
        rw [← List.singleton_append, reads_append, reads_read, reads_append, reads_action,
          List.nil_append]
        cases v with
        | none =>
          obtain ⟨t, ht, rfl⟩ := @execute_sends U (.channelSource ⟨c, false⟩)
            (.channelSource ⟨c, true⟩) rest m none [] rfl _ hr
          cases ht
          obtain ⟨hran, hreads⟩ := ran_channelSource_close hth hrest
          rw [hreads]
          exact hran
        | some e =>
          obtain ⟨t, ht, rfl⟩ := @execute_sends U (.channelSource ⟨c, false⟩)
            (.channelSource ⟨c, false⟩) rest m (some e) [.event e] (by rw [hnext]; rfl) _ hr
          have hne' : t.1 ≠ [] := by
            rw [← List.length_pos_iff, Chain.deliver_length ht, List.length_pos_iff]
            exact hne
          have hran := ih as'.length (by simp at hn; omega) hne' hrest rfl
          have hall := Ran.append ht (filterMap_call?_action t.2) hran
          exact hall

end Thread

namespace Job

variable {s₀ s : Job U} {t : List (Nat × Action)}

/-- What every run does: what is read from a channel has been written, and each thread takes its
own steps. -/
theorem stopSteps_spec (hnew : s₀.channels = fun _ => {}) (h : Steps StopStep s₀ t s) :
    (∀ ch, Holds (acts t) ch (s.channels ch).queue (s.channels ch).closed) ∧
      ∀ i, Steps Thread.StopStep (s₀.threads i) (localActs i t) (s.threads i) := by
  induction t using List.reverseRecOn generalizing s with
  | nil =>
    cases h
    refine ⟨fun ch => ?_, fun i => .nil _⟩
    rw [hnew]
    exact .start ch
  | append_singleton t x ih =>
    obtain ⟨p, hp, hlast⟩ := Steps.append_iff.mp h
    obtain ⟨q, hq, hnil⟩ := Steps.cons_iff.mp hlast
    cases hnil
    obtain ⟨hholds, hlocal⟩ := ih hp
    cases hq with
    | @thread i a th chs hth hchs =>
      refine ⟨?_, fun j => ?_⟩
      · rw [acts_append]
        exact (holds_step hholds hchs).2
      · rw [localActs_append]
        by_cases hj : j = i
        · subst hj
          rw [localActs_self]
          simp only [Function.update_self]
          exact (hlocal j).append (.single hth)
        · rw [localActs_other (Ne.symm hj), List.append_nil]
          simp only [Function.update_of_ne hj]
          exact hlocal j

section

variable {pipelines : List (Chain U)}

/-- What the steps of a run can be. -/
theorem Pieces.stopAllows (h : Pieces pipelines) (ht : Steps StopStep (start pipelines) t s)
    {i : Nat} {a : Action} (ha : (i, a) ∈ t) :
    ∃ ss, Piece i pipelines.length ss ∧ Thread.Allows ss a := by
  obtain ⟨ss, hpiece, hfits⟩ := h.fits i
  have hlocal := Steps.inv (I := Thread.Fits ss)
    (fun _ _ _ hp hstep => hp.stopStep hpiece.last hstep) hfits ((stopSteps_spec rfl ht).2 i)
  exact ⟨ss, hpiece, hlocal.2 a (mem_localActs.mpr ha)⟩

theorem Pieces.stopWired (h : Pieces pipelines) (ht : Steps StopStep (start pipelines) t s) :
    Wired (fun ch : ChannelId => (ch : Nat)) (fun ch => ch + 1) t := by
  refine ⟨fun i ch e hm => ?_, fun i ch hm => ?_, fun i ch v hm => ?_⟩
  · obtain ⟨ss, hpiece, sh, hsh, hch⟩ := h.stopAllows ht hm
    exact (hpiece.output sh hsh ch hch).symm
  · obtain ⟨ss, hpiece, sh, hsh, hch⟩ := h.stopAllows ht hm
    exact (hpiece.output sh hsh ch hch).symm
  · obtain ⟨ss, hpiece, hch⟩ := h.stopAllows ht hm
    exact (hpiece.input ch hch).1

/-- What is read from the channel of a pipeline, and what it holds, is what the pipeline writes. -/
theorem Pieces.stopReads_append_queue (h : Pieces pipelines)
    (ht : Steps StopStep (start pipelines) t s) (ch : ChannelId) :
    reads ch (localActs (ch + 1) t) ++ (s.channels ch).queue = writes ch (localActs ch t) := by
  have hwired := h.stopWired ht
  rw [show reads ch (localActs (ch + 1) t) = reads ch (acts t) from hwired.reads_local ch,
    show writes ch (localActs ch t) = writes ch (acts t) from hwired.writes_local ch]
  exact ((stopSteps_spec rfl ht).1 ch).queue

/-- What a thread that may be stopped writes, from its calls. -/
theorem stopWrites_eq_written (ht : Steps StopStep s₀ t s) (hnew : s₀.channels = fun _ => {})
    (ch : ChannelId) (i : Nat) :
    writes ch (localActs i t) = written ch ((localActs i t).filterMap call?) := by
  have hcall : ∀ a ∈ localActs i t, Act.written ch a = (call? a).bind (Output.written ch) := by
    refine (Steps.inv (I := fun _ => True) (fun _ a _ _ hstep => ⟨trivial, ?_⟩) trivial
      ((stopSteps_spec hnew ht).2 i)).2
    cases hstep with
    | step hstep => exact hstep.written ch
    | stop ops => rfl
  unfold writes written
  rw [List.filterMap_filterMap]
  exact List.filterMap_congr hcall

/-- The sink is in the last pipeline. -/
theorem Pieces.stopSinks_eq (h : Pieces pipelines) (ht : Steps StopStep (start pipelines) t s) :
    sinks (calls t) = received (localActs (pipelines.length - 1) t) := by
  have hsink : ∀ x ∈ t, x.1 ≠ pipelines.length - 1 → received [x.2] = [] := by
    intro x hx hne
    refine received_eq_nil fun e he => hne ?_
    obtain ⟨ss, hpiece, hmem⟩ := h.stopAllows ht (i := x.1) (a := .out (some (.sink e))) (he ▸ hx)
    have := hpiece.sink hmem
    omega
  clear ht
  show received (acts t) = _
  induction t with
  | nil => rfl
  | cons x t ih =>
    obtain ⟨hx, hrest⟩ := List.forall_mem_cons.mp hsink
    rw [← List.singleton_append, acts_append, localActs_append, received_append, received_append,
      ih hrest]
    refine congrArg (· ++ _) ?_
    obtain ⟨i, a⟩ := x
    by_cases hi : i = pipelines.length - 1
    · rw [hi, localActs_self]
      rfl
    · rw [localActs_other hi]
      exact hx hi

end

end Job

/-! ## What a job computes that may be stopped -/

/-- The meaning of operators whose pipelines may be stopped: each pipeline, up to the next window,
takes an initial part of its input. -/
inductive StoppedDenotes : List (LogicalImpl U) → List (Event Record) → List (Event Record) → Prop
  | last {pre : List (LogicalImpl U)} {es es' received : List (Event Record)} :
      (∀ impl ∈ pre, impl.isElementwise = true) → es' <+: es → Denotes pre es' received →
      StoppedDenotes pre es received
  | window {pre post : List (LogicalImpl U)} {op : WindowLogicalOperator U}
      {es es' fs received : List (Event Record)} {vs : List (List (Event Record))} :
      (∀ impl ∈ pre, impl.isElementwise = true) → es' <+: es → Denotes pre es' fs →
      op.spec.Cuts fs vs →
      StoppedDenotes post (CountWindowPhysicalOperator.applyAll op.func op.captured vs).1 received →
      StoppedDenotes (pre ++ .window op :: post) es received

open ExecutionGraph in
/-- From the threads to the meaning: `as` are the steps of the threads, the first of which has
been given the elements `xs`. -/
theorem stoppedDenotes_of_ran {transforms : List (LogicalImpl U)} (hsegments : Segmented transforms)
    {bound : Nat} (hwithin : ∀ impl ∈ transforms, impl.Within bound) (sink : SinkPhysicalOperator U)
    {as : Nat → List Action}
    (hchannels : ∀ ch : ChannelId, reads ch (as (ch + 1)) <+: written ch ((as ch).filterMap call?))
    {root : PhysicalOperator U} {k : Nat} {xs : List StreamElement} {es : List (Event Record)}
    (hes : events xs <+: es) (hon : OnTime transforms xs) (hbelow : Below bound xs)
    (hroot : ∀ rest tail, pipelines k [root] (compileTransforms transforms ++ [.sink sink]) =
      (root :: rest) :: tail → Thread.Ran rest xs (as k))
    (hnext : ∀ j c rest, (pipelines k [root] (compileTransforms transforms ++ [.sink sink]))[j + 1]? =
      some (.channelSource ⟨c, false⟩ :: rest) →
        Thread.Ran rest ((reads c (as (k + (j + 1)))).map .event) (as (k + (j + 1)))) :
    StoppedDenotes transforms es (received
      (as (k + ((pipelines k [root] (compileTransforms transforms ++ [.sink sink])).length - 1)))) := by
  induction hsegments generalizing root k xs es with
  | @last pre hpre =>
    have helem := isElementwise_compileTransforms hpre
    have hone : pipelines k [root] (compileTransforms pre ++ [.sink sink]) =
        [root :: (compileTransforms pre ++ [.sink sink])] := pipelines_elementwise helem k [root] _
    rw [hone] at hroot ⊢
    obtain ⟨m, hrun⟩ := hroot _ _ rfl
    have hsinks := Chain.runChain_sinks (List.forall_mem_nil _) sink m
      (Chain.pass (compileTransforms pre) xs).2
    rw [List.nil_append, ← Chain.runChain_pass helem, hrun m (Nat.le_refl m)] at hsinks
    have hreceived : received (as k) = (compileTransforms pre).survivors (events xs) := by
      rw [← Chain.events_pass]
      exact Option.some.inj hsinks
    exact .last hpre hes (hreceived ▸ denotes_survivors hpre (events xs))
  | @window pre op post hpre hpost ih =>
    obtain ⟨hwithinPre, hwithinRest⟩ := List.forall_mem_append.mp hwithin
    obtain ⟨hop, hwithinPost⟩ := List.forall_mem_cons.mp hwithinRest
    have helem := isElementwise_compileTransforms hpre
    have hsurvivors := denotes_survivors hpre (events xs)
    have hearly := hsurvivors.bounded hwithinPre (below_iff.mp hbelow).1
    obtain ⟨n, outs, vs, hcuts, hwrites, hstage⟩ := op.stage_cuts hop.1 (hon.inTime_pass hpre) (by
      rw [below_iff, Chain.events_pass, Chain.watermarks_pass]
      exact ⟨hearly, (below_iff.mp hbelow).2⟩) k
    rw [Chain.events_pass] at hcuts
    have hmeans := LogicalImpl.Means.window hcuts
    let q := (CountWindowPhysicalOperator.applyAll op.func op.captured vs).1
    rw [pipelines_window hpre] at hroot hnext ⊢
    -- the thread of the window has written the results
    have hcalls : (as k).filterMap call? = outs := by
      obtain ⟨m, hrun⟩ := hroot _ _ rfl
      have hfirst := hrun (max m n) (Nat.le_max_left m n)
      rw [Chain.runChain_writes helem (op.compile_shape k) hwrites
        (hstage _ (Nat.le_max_right m n))] at hfirst
      exact (Option.some.inj hfirst).symm
    have hwritten : written k outs = q := by
      have hcontent := congrFun (hwrites.perform (fun _ => {}) rfl) k
      rw [foldl_perform_content, Function.update_self] at hcontent
      exact congrArg InputChannel.queue hcontent
    have hread : reads k (as (k + 1)) <+: q := hwritten ▸ hcalls ▸ hchannels k
    have hrest := @ih hwithinPost (.channelSource ⟨k, false⟩) (k + 1)
      ((reads k (as (k + 1))).map .event) q (by rwa [events_map_event]) (onTime_map_event post _)
      (below_map_event fun e he => hmeans.bounded hop hearly e (hread.subset he))
      (fun rest tail htail => hnext 0 k rest (by rw [htail]; rfl))
      (fun j c rest hj => by
        rw [Nat.add_assoc, Nat.add_comm 1 (j + 1)]
        exact hnext (j + 1) c rest hj)
    have hlen := pipelines_length (k + 1) [.channelSource ⟨k, false⟩]
      (compileTransforms post ++ [.sink sink])
    refine .window hpre hes hsurvivors hcuts ?_
    rw [List.length_cons, hlen, Nat.add_sub_cancel]
    rwa [hlen, Nat.add_sub_cancel, Nat.add_assoc, Nat.add_comm 1] at hrest

theorem BoundedDisorder.initial {lateness : UInt64} {es es' : List (Event Record)}
    (h : BoundedDisorder lateness es) (hinitial : es' <+: es) : BoundedDisorder lateness es' := by
  obtain ⟨rest, rfl⟩ := hinitial
  rintro before e after rfl
  exact h before e (after ++ rest) (by simp)

namespace Job

variable {pipelines : List (Chain U)} {s : Job U} {t : List (Nat × Action)}

/-- The thread of a pipeline, from its start. -/
theorem stopSteps_local (ht : Steps StopStep (start pipelines) t s) {i : Nat} {p : Chain U}
    (hp : pipelines[i]? = some p) :
    Steps Thread.StopStep ⟨p, [], .pulling⟩ (localActs i t) (s.threads i) := by
  have hstart : (start pipelines).threads i = Thread.start p := by
    show (pipelines[i]?).elim _ Thread.start = _
    rw [hp]
    rfl
  have hlocal := (stopSteps_spec rfl ht).2 i
  rwa [hstart] at hlocal

/-- What is read from a channel is an initial part of what its pipeline calls for. -/
theorem Pieces.reads_initial_calls (h : Pieces pipelines)
    (ht : Steps StopStep (start pipelines) t s) (ch : ChannelId) :
    reads ch (localActs (ch + 1) t) <+: written ch ((localActs ch t).filterMap call?) := by
  rw [← stopWrites_eq_written ht rfl ch ch, ← h.stopReads_append_queue ht ch]
  exact List.prefix_append _ _

end Job

open ExecutionGraph in
/-- Stop requests at any time, to any of the pipelines of a linear graph, in any interleaving of
their threads: when all pipelines have finished, the sink has received the meaning of the operators
on an initial part of the events, where each window passes on an initial part of its results. -/
theorem stopped_means {g : DataflowGraph U} {source : SourceLogicalOperator U}
    {transforms : List (LogicalImpl U)} {sink : SinkLogicalOperator U}
    (hg : g.IsLinear source transforms sink) {keys : List OperatorId}
    (hkeys : keys.Perm g.inDegreeKeys) {es : List (Event Record)}
    (hes : SourcePhysicalOperator.Yields source.func source.captured es)
    (hdisorder : BoundedDisorder source.allowedLateness es) {bound : Nat}
    (hbound : maxTime es ≤ bound) (hwithin : ∀ impl ∈ transforms, impl.Within bound)
    (hkeeps : ∀ impl ∈ transforms.takeWhile (fun impl => !impl.isWindow), impl.KeepsTime) :
    ∃ k pipelines, (∀ fuel, k ≤ fuel → build fuel keys g = some pipelines) ∧
      ∀ t s, Steps Job.StopStep (Job.start pipelines) t s → s.Finished →
        StoppedDenotes transforms es (sinks (calls t)) := by
  have hpieces := hg.pieces
  refine ⟨transforms.length + 2, _, fun fuel hfuel => hg.build_eq hkeys hfuel, fun t s ht hs => ?_⟩
  -- the thread of the source has sent an initial part of the events
  obtain ⟨rest, hrest⟩ := pipelines_head 0 [source.compile]
    (compileTransforms transforms ++ [sink.compile])
  obtain ⟨es', hinitial, hran⟩ := Thread.ran_source (hs 0) rfl hes (Job.stopSteps_local ht hrest)
  rw [SourcePhysicalOperator.finish_eq_schedule (SourcePhysicalOperator.create_tracks _ _ _ _)]
    at hran
  have hevents : events (elements (SourcePhysicalOperator.schedule source.allowedLateness
      source.watermarkInterval 0 [] es')) = es' := by
    rw [events_elements, SourcePhysicalOperator.forwarded_schedule]
  have hdisorder' : BoundedDisorder source.allowedLateness es' := hdisorder.initial hinitial
  have hmeans := @stoppedDenotes_of_ran U transforms (segmented_of_isTransform hg.transforms) bound
    hwithin ⟨sink.func, sink.captured⟩ (fun i => localActs i t) (hpieces.reads_initial_calls ht)
    source.compile 0 _ es (hevents.symm ▸ hinitial)
    (.inr ⟨inTime_schedule hdisorder', hkeeps⟩)
    (below_schedule ((SourcePhysicalOperator.maxTime_mono hinitial).trans hbound))
    (fun rest' tail htail => ?_) (fun j c rest' hj => ?_)
  · rw [hpieces.stopSinks_eq ht, ← Nat.zero_add (List.length _ - 1)]
    exact hmeans
  · have hsame : some (source.compile :: rest) = some (source.compile :: rest') := by
      rw [← List.singleton_append, ← hrest]
      exact congrArg (·[0]?) htail
    cases hsame
    exact hran
  · rw [Nat.zero_add]
    refine Thread.ran_channelSource (hs (j + 1)) (fun hnil => ?_) (Job.stopSteps_local ht hj)
    subst hnil
    obtain ⟨-, hlen⟩ := (hpieces.piece (j + 1) _ hj).input c rfl
    exact absurd hlen (by simp [Chain.shapes])

end Xtream
