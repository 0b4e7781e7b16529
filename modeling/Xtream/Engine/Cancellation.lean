import Xtream.Engine.StopProgress
import Xtream.Engine.Cancel

/-!
# A program that is cancelled (`src/engine/slot_engine.cpp`, `src/engine/slot.cpp`)

A job runs on a slot engine, and another thread calls `cancel`: it stops the slots one after the
other, each before it waits for the slot's thread, while the threads go on with their calls.

* `Stopped`: what holds from the call of `cancel` on;
* `shown`: the job that the program shows, whose pipelines may be stopped;
* `steps_shown`: every run of the program makes the calls of a run of the job;
* `cancelled_means`: `cancel` can always return, and what the sink has received then.
-/

namespace Xtream

open KahnNetwork

inductive CancelAction
  /-- A step of `execute` or of the thread of a slot. -/
  | program (a : ProgramAction)
  /-- `cancel` is called. -/
  | cancel
  /-- A step of `cancel`. -/
  | canceller

/-- What a step of the job calls. -/
def callsOf (x : Nat × Action) : List Output := (call? x.2).toList

theorem calls_eq_flatMap (t : List (Nat × Action)) : calls t = t.flatMap callsOf := by
  induction t with
  | nil => rfl
  | cons x t ih =>
    rw [← List.singleton_append, calls_append, ih, List.flatMap_append]
    obtain ⟨i, a⟩ := x
    cases h : call? a <;> simp [calls, acts, callsOf, h]

namespace Program

variable {U : Type} {n : Nat} {pipelines : List (Chain U)} {s s' : Program U}

/-- A step of the program, when another thread may call `cancel`. It calls it when every slot has a
thread: otherwise a join throws. -/
inductive CancelStep : Program U → CancelAction → Program U → Prop
  | program {s s' : Program U} {a : ProgramAction} : Step s a s' → CancelStep s (.program a) s'
  | cancel {s : Program U} : s.engine.cancel = .idle → s.engine.Ready → CancelStep s .cancel
      { s with engine := { s.engine with running := false, cancel := .stop 0 } }
  | canceller {s : Program U} {e : SlotEngine U} : s.engine.cancellerStep = some e →
      CancelStep s .canceller { s with engine := e }

/-- The calls of the operators. -/
def cancelCalls : CancelAction → List Output
  | .program a => (jobAct a).toList.flatMap callsOf
  | _ => []

/-! ## What holds from the call on -/

/-- `cancel` has been called. -/
structure Stopped (n : Nat) (s : Program U) : Prop where
  running : s.engine.running = false
  slotCount : s.engine.slotCount = n
  settled : s.engine.Settled
  inside : ∀ i, (s.engine.slots i).thread ≠ none → i < n
  filled : ∀ i < n, (s.engine.slots i).pipeline ≠ none
  outside : ∀ i, n ≤ i → (s.engine.slots i).pipeline = none
  /-- The operators are closed from the first one on. -/
  closing : ∀ i, (s.engine.slots i).thread ≠ none →
    phase (s.engine.slots i).thread 0 0 = .pulling → s.closing i = 0
  /-- A thread that has calls to make runs the operators. -/
  pending : ∀ i, s.pending i ≠ [] →
    (s.engine.slots i).thread = some .test ∨ (s.engine.slots i).thread = some .close
  /-- A slot that `stop` has gone past the join of has no thread. -/
  joined : ∀ i < n, ¬ s.engine.cancel.Ahead i → (s.engine.slots i).thread = none
  joining : s.engine.Joining
  clearing : ∀ i, s.engine.cancel = .clear i → i < n

theorem Sound.stopped (h : Sound n pipelines s) (hlen : n ≤ pipelines.length)
    (hready : s.engine.Ready) : Stopped n
      { s with engine := { s.engine with running := false, cancel := .stop 0 } } := by
  obtain ⟨hsettled, hthreads⟩ := hready
  refine ⟨rfl, h.during.slotCount, hsettled, fun i => h.lt_of_thread, fun i hi => ?_, h.outside,
    fun i _ => h.closing i, h.pending, fun i _ hahead => absurd (Nat.zero_le i) hahead,
    ⟨fun _ => hsettled, fun i hi _ => hthreads i hi, fun i hjoin => by cases hjoin⟩,
    fun i hclear => by cases hclear⟩
  have htag := h.during.tag i hi (hsettled i).assigned
  have hsupply : (SlotEngine.loaded n (submissions pipelines)).supply i ≠ none := by
    rw [SlotEngine.supply_loaded, submissions, List.getElem?_map,
      List.getElem?_eq_getElem (Nat.lt_of_lt_of_le hi hlen)]
    simp
  exact fun hnone => hsupply (by rw [← htag, Slot.tag, hnone]; rfl)

/-- What a step of a thread leaves behind. -/
theorem Stopped.put (h : Stopped n s) {i k : Nat} {slot : Slot U} {outs : List Output}
    {chs : Channels} (hlive : (s.engine.slots i).thread ≠ none) (hthread : slot.thread ≠ none)
    (hpipeline : slot.pipeline ≠ none)
    (hclosing : phase slot.thread 0 0 = .pulling → k = 0)
    (hpending : outs ≠ [] → slot.thread = some .test ∨ slot.thread = some .close) :
    Stopped n (s.put i slot k outs chs) := by
  refine ⟨h.running, h.slotCount, h.settled, fun j hj => ?_, fun j hj => ?_, fun j hj => ?_,
    fun j hthread hphase => ?_, fun j hne => ?_, fun j hj hbehind => ?_,
    ⟨h.joining.settled, fun j hj hahead => ?_, h.joining.inside⟩, h.clearing⟩
  all_goals by_cases hji : j = i
  · exact hji ▸ h.inside i hlive
  · exact h.inside j (by simpa [Program.put, hji] using hj)
  · simpa [Program.put, hji] using hpipeline
  · simpa [Program.put, hji] using h.filled j hj
  · exact absurd (h.inside i hlive) (Nat.not_lt.mpr (hji ▸ hj))
  · simpa [Program.put, hji] using h.outside j hj
  · subst hji
    simp only [Program.put, SlotEngine.setSlot_slots_self] at hphase
    simpa [Program.put] using hclosing hphase
  · simp only [Program.put, SlotEngine.setSlot_slots_of_ne _ _ _ hji] at hthread hphase
    simpa [Program.put, hji] using h.closing j hthread hphase
  · subst hji
    simp only [Program.put, Function.update_self] at hne
    simpa [Program.put] using hpending hne
  · simp only [Program.put, Function.update_of_ne hji] at hne
    simpa [Program.put, hji] using h.pending j hne
  · exact absurd (h.joined i (hji ▸ hj) (hji ▸ hbehind)) hlive
  · simpa [Program.put, hji] using h.joined j hj hbehind
  · simpa [Program.put, hji] using hthread
  · simpa [Program.put, hji] using h.joining.joinable j hj hahead

/-- A step of `execute` behind `start_all` changes no slot. -/
theorem Stopped.executor (h : Stopped n s) {e : SlotEngine U}
    (hstep : SlotEngine.Executes s.engine e) :
    Stopped n { s with engine := e } ∧ ∃ point, e = { s.engine with execute := point } := by
  obtain ⟨point, rfl, hspawned⟩ := hstep.settled h.settled
  exact ⟨⟨h.running, h.slotCount, hspawned, h.inside, h.filled, h.outside, h.closing, h.pending,
    h.joined, ⟨fun _ => hspawned, h.joining.joinable, h.joining.inside⟩, h.clearing⟩, point, rfl⟩

/-- What a thread has to do stays the same, when the pipeline keeps its operators. -/
theorem Stopped.setSlot (h : Stopped n s) {i : Nat} {slot : Slot U} {point : CancelPoint}
    (hthread : slot.thread = (s.engine.slots i).thread ∨ slot.thread = none ∧
      (s.engine.slots i).thread = some .finished)
    (hpipeline : slot.pipeline = none ↔ (s.engine.slots i).pipeline = none)
    (hjoined : ∀ j < n, ¬ point.Ahead j →
      ¬ s.engine.cancel.Ahead j ∨ j = i ∧ slot.thread = none)
    (hjoining : SlotEngine.Joining { s.engine.setSlot i slot with cancel := point })
    (hclearing : ∀ j, point = .clear j → j < n) :
    Stopped n { s with engine := { s.engine.setSlot i slot with cancel := point } } := by
  have hslot : ∀ {j : Nat} {p : RunPoint}, ((s.engine.setSlot i slot).slots j).thread = some p →
      (s.engine.slots j).thread = some p := by
    intro j p hp
    by_cases hj : j = i
    · subst hj
      rw [SlotEngine.setSlot_slots_self] at hp
      rcases hthread with hsame | ⟨hnone, -⟩
      · exact hsame ▸ hp
      · rw [hnone] at hp
        cases hp
    · rwa [SlotEngine.setSlot_slots_of_ne _ _ _ hj] at hp
  refine ⟨h.running, h.slotCount, h.settled, fun j hj => ?_, fun j hj => ?_, fun j hj => ?_,
    fun j hthread' hphase => ?_, fun j hne => ?_, fun j hj hbehind => ?_, hjoining, hclearing⟩
  · obtain ⟨p, hp⟩ := Option.ne_none_iff_exists'.mp hj
    exact h.inside j (by rw [hslot hp]; simp)
  · by_cases hji : j = i
    · subst hji
      simpa [hpipeline] using h.filled j hj
    · simpa [hji] using h.filled j hj
  · by_cases hji : j = i
    · subst hji
      simpa [hpipeline] using h.outside j hj
    · simpa [hji] using h.outside j hj
  · obtain ⟨p, hp⟩ := Option.ne_none_iff_exists'.mp hthread'
    refine h.closing j (by rw [hslot hp]; simp) ?_
    rw [hslot hp, ← hp]
    exact hphase
  · have hold := h.pending j hne
    by_cases hji : j = i
    · subst hji
      rcases hthread with hsame | ⟨-, hfinished⟩
      · simpa [hsame] using hold
      · rw [hfinished] at hold
        simp at hold
    · simpa [hji] using hold
  · rcases hjoined j hj hbehind with hold | ⟨rfl, hnone⟩
    · have hnone := h.joined j hj hold
      by_contra hne
      obtain ⟨p, hp⟩ := Option.ne_none_iff_exists'.mp hne
      rw [hslot hp] at hnone
      cases hnone
    · simpa using hnone

/-- A step of `cancel`. -/
theorem Stopped.cancels (h : Stopped n s) {e : SlotEngine U}
    (hstep : SlotEngine.Cancels s.engine e) : Stopped n { s with engine := e } := by
  have hcount := h.slotCount
  have hjoining := h.joining.cancels hstep
  cases hstep with
  | @stop i hpoint hi =>
    refine h.setSlot (Or.inl rfl) (by simp [Slot.stopPipeline]) (fun j _ hbehind => ?_) hjoining
      (fun j hclear => by cases hclear)
    rw [hpoint]
    exact Or.inl hbehind
  | @stopped i hpoint hle =>
    refine ⟨h.running, hcount, h.settled, h.inside, h.filled, h.outside, h.closing, h.pending,
      fun j hj _ => h.joined j hj ?_, hjoining, fun j hclear => by cases hclear⟩
    rw [hpoint]
    exact Nat.not_le.mpr (Nat.lt_of_lt_of_le hj (hcount ▸ hle))
  | @join i hpoint hthread =>
    refine h.setSlot (Or.inr ⟨rfl, hthread⟩) Iff.rfl (fun j _ hbehind => ?_) hjoining
      (fun j hclear => ?_)
    · have hle : ¬ i < j := hbehind
      rcases Nat.lt_or_ge j i with hj | hj
      · rw [hpoint]
        exact Or.inl (Nat.not_le.mpr hj)
      · exact Or.inr ⟨by omega, rfl⟩
    · cases hclear
      exact h.inside i (by simp [hthread])
  | @clear i hpoint =>
    refine h.setSlot (Or.inl rfl) Iff.rfl (fun j _ hbehind => ?_) hjoining
      (fun j hclear => by cases hclear)
    rw [hpoint]
    exact Or.inl hbehind

/-! ## The job that the program shows -/

/-- The phase of the thread of a slot; a thread that has been joined has come to its end. -/
def shownPhase (running : Bool) (point : Option RunPoint) (closing length : Nat) : Phase :=
  if !running && point.isNone then .closing length else phase point closing length

/-- The threads of the pipelines. -/
def shownThreads (pipelines : List (Chain U)) (s : Program U) (i : Nat) : Thread U :=
  match (s.engine.slots i).pipeline with
  | none => (Job.start pipelines).threads i
  | some p => ⟨p.root, s.pending i,
      shownPhase s.engine.running (s.engine.slots i).thread (s.closing i) p.root.length⟩

/-- The job that the program shows. -/
def shown (pipelines : List (Chain U)) (s : Program U) : Job U :=
  ⟨shownThreads pipelines s, s.channels⟩

theorem shown_of_running (h : s.engine.running = true) : shown pipelines s = job pipelines s := by
  refine congrArg (Job.mk · s.channels) (funext fun i => ?_)
  unfold shownThreads threads
  cases (s.engine.slots i).pipeline with
  | none => rfl
  | some p => simp [shownPhase, h]

@[simp] theorem shownPhase_some (running : Bool) (p : RunPoint) (closing length : Nat) :
    shownPhase running (some p) closing length = phase (some p) closing length := by
  simp [shownPhase]

theorem shownThreads_of_pipeline {i : Nat} {p : Pipeline U}
    (hp : (s.engine.slots i).pipeline = some p) : shownThreads pipelines s i = ⟨p.root, s.pending i,
      shownPhase s.engine.running (s.engine.slots i).thread (s.closing i) p.root.length⟩ := by
  unfold shownThreads
  rw [hp]

theorem shownThreads_put {i k : Nat} {slot : Slot U} {outs : List Output} {chs : Channels}
    {p : Pipeline U} (hp : slot.pipeline = some p) :
    shownThreads pipelines (s.put i slot k outs chs) = Function.update (shownThreads pipelines s) i
      ⟨p.root, outs, shownPhase s.engine.running slot.thread k p.root.length⟩ := by
  funext j
  by_cases hj : j = i
  · subst hj
    rw [Function.update_self, shownThreads_of_pipeline (p := p) (by simpa [put] using hp)]
    simp [put]
  · rw [Function.update_of_ne hj]
    simp [shownThreads, put, hj]

/-- A stop and a join change nothing that shows. -/
theorem shownThreads_setSlot (hrunning : s.engine.running = false) {i : Nat} {slot : Slot U}
    {point : CancelPoint}
    (hroot : slot.pipeline.map Pipeline.root = (s.engine.slots i).pipeline.map Pipeline.root)
    (hthread : slot.thread = (s.engine.slots i).thread ∨ slot.thread = none ∧
      (s.engine.slots i).thread = some .finished) :
    shownThreads pipelines
      { s with engine := { s.engine.setSlot i slot with cancel := point } } =
        shownThreads pipelines s := by
  funext j
  by_cases hj : j = i
  · subst hj
    unfold shownThreads
    simp only [SlotEngine.setSlot_slots_self]
    cases hp : (s.engine.slots j).pipeline with
    | none =>
      rw [hp, Option.map_none, Option.map_eq_none_iff] at hroot
      simp only [hroot]
    | some p =>
      rw [hp, Option.map_some, Option.map_eq_some_iff] at hroot
      obtain ⟨q, hq, hsame⟩ := hroot
      rcases hthread with hthread | ⟨hnone, hfinished⟩
      · simp [hq, hsame, hthread]
      · simp [hq, hsame, hnone, hfinished, hrunning, shownPhase, phase]
  · simp [shownThreads, hj]

theorem shown_canceller (hrunning : s.engine.running = false) {e : SlotEngine U}
    (hstep : SlotEngine.Cancels s.engine e) :
    shown pipelines { s with engine := e } = shown pipelines s := by
  refine congrArg (Job.mk · s.channels) ?_
  cases hstep with
  | @stop i _ _ =>
    refine shownThreads_setSlot hrunning ?_ (Or.inl rfl)
    cases hp : (s.engine.slots i).pipeline <;> simp [Slot.stopPipeline, hp, Pipeline.stop]
  | stopped _ _ => rfl
  | join _ hthread => exact shownThreads_setSlot hrunning rfl (Or.inr ⟨rfl, hthread⟩)
  | clear _ => exact shownThreads_setSlot hrunning rfl (Or.inl rfl)

/-! ### A step of the thread of a slot -/

/-- A step that calls no operator does not show, or it is the test after a stop request. -/
theorem Stopped.control (h : Stopped n s) {i : Nat} {slot : Slot U} (hpending : s.pending i = [])
    (hstep : Control (s.closing i) (s.engine.slots i) slot) :
    Stopped n (s.put i slot (s.closing i) [] s.channels) ∧
      ∃ bs, Steps Job.StopStep (shown pipelines s) bs
        (shown pipelines (s.put i slot (s.closing i) [] s.channels)) ∧
        bs.flatMap callsOf = [] := by
  have hlive := hstep.ran.live.1
  have hclosing := h.closing i hlive
  -- the steps that do not show
  have hself : ∀ {p p' : Pipeline U}, (s.engine.slots i).pipeline = some p →
      slot.pipeline = some p' → p'.root = p.root →
      shownPhase s.engine.running slot.thread (s.closing i) p.root.length =
        shownPhase s.engine.running (s.engine.slots i).thread (s.closing i) p.root.length →
      ∃ bs, Steps Job.StopStep (shown pipelines s) bs
        (shown pipelines (s.put i slot (s.closing i) [] s.channels)) ∧
        bs.flatMap callsOf = [] := by
    intro p p' hp hp' hroot hphase
    have hsame : shown pipelines (s.put i slot (s.closing i) [] s.channels) = shown pipelines s := by
      refine congrArg (Job.mk · s.channels) ?_
      rw [shownThreads_put hp', Function.update_eq_iff]
      refine ⟨?_, fun _ _ => rfl⟩
      rw [shownThreads_of_pipeline hp, hpending, hroot, hphase]
    rw [hsame]
    exact ⟨[], .nil _, rfl⟩
  refine ⟨h.put hlive hstep.ran.thread.1 hstep.ran.pipeline (fun hphase => ?_)
    (fun hne => absurd rfl hne), ?_⟩
  · cases hstep with
    | begin hpoint _ => exact hclosing (by rw [hpoint]; rfl)
    | test hpoint _ => exact hclosing (by rw [hpoint]; rfl)
    | closed => cases hphase
    | leave => cases hphase
  · cases hstep with
    | begin hpoint hp => exact hself hp rfl rfl (by simp [hpoint, phase])
    | @test p hpoint hp =>
      rcases Bool.eq_false_or_eq_true p.running with hrunning | hrunning
      · exact hself hp hp rfl (by simp [hpoint, hrunning, phase])
      · have hzero := hclosing (by rw [hpoint]; rfl)
        have hstop : Thread.StopStep (shownThreads pipelines s i) (.out none)
            ⟨p.root, [], .closing 0⟩ := by
          rw [shownThreads_of_pipeline hp, hpending, hpoint]
          simpa [phase] using Thread.StopStep.stop p.root
        have hjob := @Job.StopStep.thread U (shown pipelines s) i _ _ _ hstop (.out _ none)
        refine ⟨[(i, .out none)], .single ?_, rfl⟩
        have hput := @shownThreads_put U pipelines s i (s.closing i)
          { s.engine.slots i with thread := some (if p.running then .execute else .close) } []
          s.channels p hp
        have hphase : shownPhase s.engine.running
            (some (if p.running then RunPoint.execute else .close)) (s.closing i) p.root.length =
              .closing 0 := by
          simp [hrunning, hzero, phase]
        unfold shown
        rw [hput, hphase]
        exact hjob
    | closed hpoint hp hk => exact hself hp hp rfl (by simp [hpoint, hk, phase])
    | leave hpoint hp => exact hself hp hp rfl (by simp [hpoint, phase])

/-- A step of the job shows. -/
theorem Stopped.call (h : Stopped n s) {i : Nat} {o : Output} {outs : List Output}
    {chs : Channels} (hpending : s.pending i = o :: outs) (heffect : Effect s.channels o.action chs) :
    Stopped n (s.put i (s.engine.slots i) (s.closing i) outs chs) ∧
      Job.StopStep (shown pipelines s) (i, o.action)
        (shown pipelines (s.put i (s.engine.slots i) (s.closing i) outs chs)) := by
  have hthread := h.pending i (by simp [hpending])
  have hlive : (s.engine.slots i).thread ≠ none := by
    rcases hthread with hthread | hthread <;> simp [hthread]
  have hfilled := h.filled i (h.inside i hlive)
  obtain ⟨p, hp⟩ := Option.ne_none_iff_exists'.mp hfilled
  refine ⟨h.put hlive hlive hfilled (h.closing i hlive) (fun _ => hthread), ?_⟩
  have hcall : Thread.StopStep (shownThreads pipelines s i) o.action ⟨p.root, outs,
      shownPhase s.engine.running (s.engine.slots i).thread (s.closing i) p.root.length⟩ := by
    rw [shownThreads_of_pipeline hp, hpending]
    exact .step (.call _ _ _ _)
  have hjob := @Job.StopStep.thread U (shown pipelines s) i _ _ chs hcall heffect
  unfold shown
  rw [shownThreads_put hp]
  exact hjob

/-- A call of an operator is a step of the thread. -/
theorem Stopped.thread_work (h : Stopped n s) {i k : Nat} {a : Action} {slot : Slot U}
    {outs : List Output} (hpending : s.pending i = [])
    (hstep : Work (s.engine.slots i) (s.closing i) a slot k outs) : ∃ p, slot.pipeline = some p ∧
      Thread.Step (shownThreads pipelines s i) a
        ⟨p.root, outs, shownPhase s.engine.running slot.thread k p.root.length⟩ := by
  have hclosing := h.closing i hstep.ran.live.1
  cases hstep with
  | @pull p fuel r hpoint hp hne hinput hr =>
    refine ⟨_, rfl, ?_⟩
    rw [shownThreads_of_pipeline hp, hpending, hpoint, hclosing (by rw [hpoint]; rfl),
      shownPhase_some, shownPhase_some, phase_pulled]
    exact .pull hne hinput hr
  | @read p fuel r ch v hpoint hp hinput hr =>
    refine ⟨_, rfl, ?_⟩
    rw [shownThreads_of_pipeline hp, hpending, hpoint, hclosing (by rw [hpoint]; rfl),
      shownPhase_some, shownPhase_some, phase_pulled]
    exact .read hinput hr
  | @close p fuel r hpoint hp hk hr =>
    refine ⟨_, rfl, ?_⟩
    rw [shownThreads_of_pipeline hp, hpending, hpoint, shownPhase_some, shownPhase_some]
    exact .close hk hr

theorem Stopped.work (h : Stopped n s) {i k : Nat} {a : Action} {slot : Slot U}
    {outs : List Output} {chs : Channels} (hpending : s.pending i = [])
    (hstep : Work (s.engine.slots i) (s.closing i) a slot k outs)
    (heffect : Effect s.channels a chs) : Stopped n (s.put i slot k outs chs) ∧
      Job.StopStep (shown pipelines s) (i, a) (shown pipelines (s.put i slot k outs chs)) := by
  have hlive := hstep.ran.live.1
  have hclosing := h.closing i hlive
  obtain ⟨p, hp, hthread⟩ := @Stopped.thread_work U n pipelines s h i k a slot outs hpending hstep
  refine ⟨h.put hlive hstep.ran.thread.1 hstep.ran.pipeline (fun hphase => ?_) (fun hne => ?_), ?_⟩
  · cases hstep with
    | pull hpoint => exact hclosing (by rw [hpoint]; rfl)
    | read hpoint => exact hclosing (by rw [hpoint]; rfl)
    | close hpoint => simp [hpoint, phase] at hphase
  · cases hstep with
    | @pull p fuel r => cases Chain.isDone r.1 <;> simp
    | @read p fuel r => cases Chain.isDone r.1 <;> simp
    | close hpoint => exact Or.inr hpoint
  · have hjob := @Job.StopStep.thread U (shown pipelines s) i _ _ chs (.step hthread) heffect
    unfold shown
    rw [shownThreads_put hp]
    exact hjob

/-! ### The runs -/

theorem Step.cancel {a : ProgramAction} (h : Step s a s') : s'.engine.cancel = s.engine.cancel := by
  cases h with
  | executor he => exact (SlotEngine.executorStep_inv he).cancel
  | _ => rfl

theorem job_stopStep {p q : Job U} {x : Nat × Action} (h : Job.Step p x q) : Job.StopStep p x q := by
  cases h with
  | thread hth hchs => exact .thread (.step hth) hchs

/-- The call of `cancel` does not show. -/
theorem Sound.shown_cancel (h : Sound n pipelines s) (hready : s.engine.Ready) :
    shown pipelines
      { s with engine := { s.engine with running := false, cancel := .stop 0 } } =
        shown pipelines s := by
  refine congrArg (Job.mk · s.channels) (funext fun i => ?_)
  unfold shownThreads
  rcases Nat.lt_or_ge i n with hi | hi
  · obtain ⟨p, hp⟩ := Option.ne_none_iff_exists'.mp (hready.2 i (h.during.slotCount ▸ hi))
    simp only [hp, shownPhase_some]
  · simp only [h.outside i hi]

/-- What a step shows: steps of the job that make the same calls. -/
def Shown (pipelines : List (Chain U)) (s : Program U) (outs : List Output) (s' : Program U) :
    Prop :=
  ∃ bs, Steps Job.StopStep (shown pipelines s) bs (shown pipelines s') ∧ bs.flatMap callsOf = outs

theorem shown_of_eq (h : shown pipelines s' = shown pipelines s) : Shown pipelines s [] s' := by
  unfold Shown
  rw [h]
  exact ⟨[], .nil _, rfl⟩

theorem Stopped.step (h : Stopped n s) {a : ProgramAction} (hstep : Step s a s') :
    Stopped n s' ∧ Shown pipelines s (cancelCalls (.program a)) s' := by
  cases hstep with
  | executor he =>
    obtain ⟨hstopped, point, rfl⟩ := h.executor (SlotEngine.executorStep_inv he)
    exact ⟨hstopped, shown_of_eq rfl⟩
  | control hpending hcontrol => exact h.control hpending hcontrol
  | call hpending heffect =>
    obtain ⟨hstopped, hjob⟩ := h.call hpending heffect
    exact ⟨hstopped, [_], .single hjob, rfl⟩
  | work hpending hwork heffect =>
    obtain ⟨hstopped, hjob⟩ := h.work hpending hwork heffect
    exact ⟨hstopped, [_], .single hjob, rfl⟩

/-- Before the call of `cancel`, or from it on. -/
def Accounted (n : Nat) (pipelines : List (Chain U)) (s : Program U) : Prop :=
  (Sound n pipelines s ∧ s.engine.cancel = .idle) ∨ Stopped n s

/-- A step shows. -/
theorem Accounted.step (h : Accounted n pipelines s) (hlen : n ≤ pipelines.length)
    {a : CancelAction} (hstep : CancelStep s a s') :
    Accounted n pipelines s' ∧ Shown pipelines s (cancelCalls a) s' := by
  rcases h with ⟨hsound, hidle⟩ | hstopped
  · have hshown := @shown_of_running U pipelines s hsound.during.running
    cases hstep with
    | @program _ a hstep =>
      have hnext := hsound.step hstep
      refine ⟨.inl ⟨hnext, (hstep.cancel).trans hidle⟩, ?_⟩
      have hshows := hsound.shows hstep
      unfold Shown
      rw [hshown, shown_of_running hnext.during.running]
      cases ha : jobAct a with
      | none =>
        rw [ha] at hshows
        rw [show job pipelines s' = job pipelines s from hshows]
        exact ⟨[], .nil _, by simp [cancelCalls, ha]⟩
      | some x =>
        rw [ha] at hshows
        exact ⟨[x], .single (job_stopStep hshows), by simp [cancelCalls, ha]⟩
    | cancel _ hready =>
      exact ⟨.inr (hsound.stopped hlen hready), shown_of_eq (hsound.shown_cancel hready)⟩
    | canceller he => exact absurd hidle (SlotEngine.cancellerStep_inv he).ne_idle
  · cases hstep with
    | program hstep =>
      obtain ⟨hnext, hshown⟩ := hstopped.step hstep
      exact ⟨.inr hnext, hshown⟩
    | cancel hidle hready =>
      refine ⟨.inr ⟨rfl, hstopped.slotCount, hstopped.settled, hstopped.inside, hstopped.filled,
        hstopped.outside, hstopped.closing, hstopped.pending,
        fun i _ hbehind => absurd (Nat.zero_le i) hbehind,
        ⟨fun _ => hready.1, fun i hi _ => hready.2 i hi, fun i hjoin => by cases hjoin⟩,
        fun i hclear => by cases hclear⟩, shown_of_eq ?_⟩
      unfold shown shownThreads
      rw [hstopped.running]
    | canceller he =>
      have hcancels := SlotEngine.cancellerStep_inv he
      exact ⟨.inr (hstopped.cancels hcancels),
        shown_of_eq (shown_canceller hstopped.running hcancels)⟩

/-- A run of the program makes the calls of a run of the job whose pipelines may be stopped. -/
theorem steps_shown (hlen : n ≤ pipelines.length) {t : List CancelAction}
    (h : Steps CancelStep (start n pipelines) t s) : Accounted n pipelines s ∧ ∃ bs,
      Steps Job.StopStep (Job.start pipelines) bs (shown pipelines s) ∧
        calls bs = t.flatMap cancelCalls := by
  have hstart : Accounted n pipelines (start n pipelines) := .inl ⟨sound_start n pipelines, rfl⟩
  obtain ⟨bs, hbs, hcalls⟩ := @Steps.simulate_seen (Program U) CancelAction (Job U) (Nat × Action)
    CancelStep Job.StopStep Output (shown pipelines) cancelCalls callsOf (Accounted n pipelines)
    (fun _ _ _ hp hstep => (hp.step hlen hstep).1) (fun _ _ _ hp hstep => (hp.step hlen hstep).2)
    _ _ _ hstart h
  rw [shown_of_running (s := start n pipelines) rfl, job_start] at hbs
  exact ⟨Steps.invariant (fun _ _ _ hp hstep => (hp.step hlen hstep).1) hstart h, bs, hbs,
    (calls_eq_flatMap bs).trans hcalls⟩

/-! ## When `cancel` has returned -/

/-- Only `cancel` writes `running_` of the engine. -/
theorem CancelStep.running {a : CancelAction} (h : CancelStep s a s') :
    s'.engine.running = false ∨ a ≠ .cancel ∧ s'.engine.running = s.engine.running := by
  cases h with
  | program hstep =>
    refine Or.inr ⟨fun h => (by cases h), ?_⟩
    cases hstep with
    | executor he => cases SlotEngine.executorStep_inv he <;> rfl
    | _ => rfl
  | cancel => exact Or.inl rfl
  | canceller he =>
    refine Or.inr ⟨fun h => (by cases h), ?_⟩
    cases SlotEngine.cancellerStep_inv he <;> rfl

theorem running_of_mem_cancel {t : List CancelAction} (h : Steps CancelStep s t s')
    (hmem : .cancel ∈ t) : s'.engine.running = false := by
  have hlast := @Steps.history (Program U) CancelAction CancelStep
    (fun as s => .cancel ∈ as → s.engine.running = false) (fun as p a q hp hstep ha => ?_) s s' [] t
    (fun h => (by cases h)) h
  · exact hlast hmem
  · rcases hstep.running with hfalse | ⟨hne, hsame⟩
    · exact hfalse
    · rw [hsame]
      refine hp ((List.mem_append.mp ha).resolve_right ?_)
      simpa using Ne.symm hne

theorem Accounted.stopped (h : Accounted n pipelines s) (hrunning : s.engine.running = false) :
    Stopped n s := by
  rcases h with ⟨hsound, -⟩ | hstopped
  · rw [hsound.during.running] at hrunning
    cases hrunning
  · exact hstopped

/-- A slot without a thread shows a thread that has finished. -/
theorem Stopped.thread_finished (h : Stopped n s) {i : Nat} (hi : i < n)
    (hnone : (s.engine.slots i).thread = none) : (shownThreads pipelines s i).Finished := by
  obtain ⟨p, hp⟩ := Option.ne_none_iff_exists'.mp (h.filled i hi)
  rw [shownThreads_of_pipeline hp]
  refine ⟨?_, by simp [shownPhase, h.running, hnone]⟩
  by_contra hne
  simpa [hnone] using h.pending i hne

theorem Stopped.finished (h : Stopped n s) (hlen : n = pipelines.length)
    (hidle : s.engine.cancel = .idle) : (shown pipelines s).Finished := by
  intro i
  rcases Nat.lt_or_ge i n with hi | hi
  · exact h.thread_finished hi (h.joined i hi (by rw [hidle]; exact not_false))
  · show (shownThreads pipelines s i).Finished
    have hmissing : pipelines[i]? = none := List.getElem?_eq_none (hlen ▸ hi)
    unfold shownThreads
    rw [h.outside i hi]
    simp only [Job.start, hmissing]
    exact ⟨rfl, rfl⟩

/-! ## The threads come to their ends -/

/-- A thread that has not been joined, with what its channel holds. -/
structure Live (n : Nat) (pipelines : List (Chain U)) (ss : List Shape) (i : Nat)
    (avail : List (Event Record)) (th : Thread U) (s : Program U) : Prop where
  stopped : Stopped n s
  thread : (s.engine.slots i).thread ≠ none
  shown : shownThreads pipelines s i = th
  fits : Thread.Fits ss th
  channel : ∀ ch, Chain.inputChannel th.ops = some ch → s.channels ch = ⟨avail, true⟩

/-- The thread of a slot can come to its end, before `cancel` takes its next step. -/
def Finishes (n i : Nat) (s : Program U) : Prop :=
  ∃ t s', Steps CancelStep s t s' ∧ s'.engine.cancel = s.engine.cancel ∧ Stopped n s' ∧
    (s'.engine.slots i).thread = some .finished

theorem Finishes.of_steps {i : Nat} {t : List CancelAction} (hsteps : Steps CancelStep s t s')
    (hcancel : s'.engine.cancel = s.engine.cancel) (h : Finishes n i s') : Finishes n i s := by
  obtain ⟨t', s'', hsteps', hcancel', hfinished⟩ := h
  exact ⟨t ++ t', s'', hsteps.append hsteps', hcancel'.trans hcancel, hfinished⟩

section

variable {ss : List Shape} {i : Nat} {avail : List (Event Record)} {th : Thread U}

theorem Live.exists_pipeline (h : Live n pipelines ss i avail th s) :
    ∃ p, (s.engine.slots i).pipeline = some p :=
  Option.ne_none_iff_exists'.mp (h.stopped.filled i (h.stopped.inside i h.thread))

/-- A thread writes to its own channel only, and so not to the one that it reads. -/
theorem perform_eq_of_allows {m : Nat} (hpiece : Piece i m ss) {o : Output}
    (hallows : Thread.Allows ss o.action) {ch : ChannelId}
    (hinput : ss.head?.bind Shape.inputChannel = some ch) (chs : Channels) :
    perform chs o ch = chs ch := by
  have hne : ∀ ch', (∃ sh ∈ ss, sh.outputChannel = some ch') → ch ≠ ch' := by
    rintro ch' ⟨sh, hsh, hch'⟩ rfl
    have hout := hpiece.output sh hsh ch hch'
    have hin := (hpiece.input ch hinput).1
    exact absurd (hout.trans hin) (Nat.ne_of_lt (Nat.lt_succ_self ch))
  cases o with
  | write ch' e => exact Function.update_of_ne (hne ch' hallows) _ _
  | closeChannel ch' => exact Function.update_of_ne (hne ch' hallows) _ _
  | _ => rfl

/-- The pending calls are made. -/
theorem Live.call {m : Nat} (hpiece : Piece i m ss) {ops : Chain U} {o : Output}
    {outs : List Output} {phase : Phase}
    (h : Live n pipelines ss i avail ⟨ops, o :: outs, phase⟩ s) :
    ∃ a s', Steps CancelStep s [a] s' ∧ s'.engine.cancel = s.engine.cancel ∧
      Live n pipelines ss i avail ⟨ops, outs, phase⟩ s' := by
  obtain ⟨p, hp⟩ := h.exists_pipeline
  have hshown := h.shown
  rw [shownThreads_of_pipeline hp] at hshown
  obtain ⟨rfl, hpending, hphase⟩ := Thread.mk.inj hshown
  have heffect := effect_action s.channels o
  obtain ⟨hfits, hallows⟩ := h.fits.stopStep hpiece.last (.step (.call _ _ _ _))
  refine ⟨_, _, .single (.program (.call hpending heffect)), rfl,
    (@Stopped.call U n pipelines s h.stopped i o outs _ hpending heffect).1, ?_, ?_,
    hfits, fun ch hch => ?_⟩
  · simpa [put] using h.thread
  · rw [shownThreads_put hp, Function.update_self, hphase]
  · rw [← h.channel ch hch]
    rw [Chain.inputChannel_shapes, h.fits.shapes] at hch
    exact perform_eq_of_allows hpiece hallows hch s.channels

/-- A call of an operator. -/
theorem Live.work {m : Nat} (hpiece : Piece i m ss) {ops : Chain U} {outs : List Output}
    {phase : Phase} (h : Live n pipelines ss i avail th s) (hpending : s.pending i = []) {a : Action}
    {slot : Slot U} {k : Nat} {p : Pipeline U} (hp : slot.pipeline = some p) {chs : Channels}
    (hwork : Work (s.engine.slots i) (s.closing i) a slot k outs)
    (heffect : Effect s.channels a chs) (hops : p.root = ops)
    (hphase : shownPhase s.engine.running slot.thread k p.root.length = phase)
    {avail' : List (Event Record)}
    (hchannel : ∀ ch, Chain.inputChannel th.ops = some ch → chs ch = ⟨avail', true⟩) :
    ∃ a s', Steps CancelStep s [a] s' ∧ s'.engine.cancel = s.engine.cancel ∧
      Live n pipelines ss i avail' ⟨ops, outs, phase⟩ s' := by
  subst hops hphase
  obtain ⟨q, hq, hthread⟩ := @Stopped.thread_work U n pipelines s h.stopped i k a slot outs hpending
    hwork
  obtain rfl : p = q := Option.some.inj (hp.symm.trans hq)
  rw [h.shown] at hthread
  have hfits := (h.fits.stopStep hpiece.last (.step hthread)).1
  refine ⟨_, _, .single (.program (.work hpending hwork heffect)), rfl,
    (@Stopped.work U n pipelines s h.stopped i k a slot outs chs hpending hwork heffect).1, ?_, ?_,
    hfits, fun ch hch => ?_⟩
  · simpa [put] using hwork.ran.thread.1
  · rw [shownThreads_put hp, Function.update_self]
  · rw [Chain.inputChannel_shapes, hfits.shapes, ← h.fits.shapes, ← Chain.inputChannel_shapes] at hch
    exact hchannel ch hch

/-- A step that calls no operator. -/
theorem Live.control (h : Live n pipelines ss i avail th s) (hpending : s.pending i = [])
    {slot : Slot U} (hcontrol : Control (s.closing i) (s.engine.slots i) slot) {p : Pipeline U}
    (hp : slot.pipeline = some p) (hops : p.root = th.ops) {phase : Phase}
    (hphase : shownPhase s.engine.running slot.thread (s.closing i) p.root.length =
      phase) :
    CancelStep s (.program (.control i)) (s.put i slot (s.closing i) [] s.channels) ∧
      Live n pipelines ss i avail ⟨th.ops, [], phase⟩
        (s.put i slot (s.closing i) [] s.channels) := by
  subst hphase
  refine ⟨.program (.control hpending hcontrol),
    (@Stopped.control U n pipelines s h.stopped i slot hpending hcontrol).1, ?_, ?_,
    ⟨h.fits.shapes, [], none, rfl, List.forall_mem_nil _, fun _ h => by cases h⟩, h.channel⟩
  · simpa [put] using hcontrol.ran.thread.1
  · rw [shownThreads_put hp, Function.update_self, hops]

section

variable {ops : Chain U}

/-- What a thread shows that runs its loop. -/
theorem Live.shown_ops {outs : List Output} {phase : Phase}
    (h : Live n pipelines ss i avail ⟨ops, outs, phase⟩ s) {p : Pipeline U}
    (hp : (s.engine.slots i).pipeline = some p) : p.root = ops ∧ s.pending i = outs ∧
      shownPhase s.engine.running (s.engine.slots i).thread (s.closing i) p.root.length = phase := by
  have hshown := h.shown
  rw [shownThreads_of_pipeline hp] at hshown
  exact Thread.mk.inj hshown

/-- The test of the loop: the thread goes on, or it has been stopped. -/
theorem Live.test (h : Live n pipelines ss i avail ⟨ops, [], .pulling⟩ s)
    (hpoint : (s.engine.slots i).thread = some .test) :
    ∃ a s', CancelStep s a s' ∧ s'.engine.cancel = s.engine.cancel ∧
      ((Live n pipelines ss i avail ⟨ops, [], .pulling⟩ s' ∧
        (s'.engine.slots i).thread = some .execute) ∨
        Live n pipelines ss i avail ⟨ops, [], .closing 0⟩ s') := by
  obtain ⟨p, hp⟩ := h.exists_pipeline
  obtain ⟨hops, hpending, -⟩ := h.shown_ops hp
  have hzero := h.stopped.closing i h.thread (by rw [hpoint]; rfl)
  rcases Bool.eq_false_or_eq_true p.running with hrunning | hrunning
  · have hphase : shownPhase s.engine.running
        (some (if p.running then RunPoint.execute else .close)) (s.closing i) p.root.length =
          .pulling := by
      simp [hrunning, phase]
    obtain ⟨hstep, hlive⟩ := h.control hpending (.test hpoint hp) hp hops hphase
    exact ⟨_, _, hstep, rfl, .inl ⟨hlive, by simp [put, hrunning]⟩⟩
  · have hphase : shownPhase s.engine.running
        (some (if p.running then RunPoint.execute else .close)) (s.closing i) p.root.length =
          .closing 0 := by
      simp [hrunning, hzero, phase]
    obtain ⟨hstep, hlive⟩ := h.control hpending (.test hpoint hp) hp hops hphase
    exact ⟨_, _, hstep, rfl, .inr hlive⟩

/-- A thread in its loop comes to the next pull, or it has been stopped. -/
theorem Live.pulls (h : Live n pipelines ss i avail ⟨ops, [], .pulling⟩ s) :
    ∃ t s', Steps CancelStep s t s' ∧ s'.engine.cancel = s.engine.cancel ∧
      ((Live n pipelines ss i avail ⟨ops, [], .pulling⟩ s' ∧
        (s'.engine.slots i).thread = some .execute) ∨
        Live n pipelines ss i avail ⟨ops, [], .closing 0⟩ s') := by
  obtain ⟨p, hp⟩ := h.exists_pipeline
  obtain ⟨hops, hpending, hphase⟩ := h.shown_ops hp
  cases hpoint : (s.engine.slots i).thread with
  | none => exact absurd hpoint h.thread
  | some point =>
    rw [hpoint, shownPhase_some] at hphase
    cases point with
    | call =>
      obtain ⟨hstep, hlive⟩ := h.control hpending (.begin hpoint hp) rfl hops (shownPhase_some ..)
      obtain ⟨a, s', hstep', hcancel, hnext⟩ := hlive.test (by simp [put])
      exact ⟨_, s', .cons hstep (.single hstep'), hcancel, hnext⟩
    | test =>
      obtain ⟨a, s', hstep, hcancel, hnext⟩ := h.test hpoint
      exact ⟨_, s', .single hstep, hcancel, hnext⟩
    | execute => exact ⟨[], s, .nil s, rfl, .inl ⟨h, hpoint⟩⟩
    | _ => cases hphase

/-- A pull: of the source, or of a channel source. -/
theorem Live.pull {m : Nat} (hpiece : Piece i m ss)
    (h : Live n pipelines ss i avail ⟨ops, [], .pulling⟩ s)
    (hpoint : (s.engine.slots i).thread = some .execute) {fuel : Nat} {v : Option (Event Record)}
    {r : Chain U × List Output} (hr : Chain.execute fuel v ops Pipeline.dummy = some r)
    {avail' : List (Event Record)}
    (hinput : (ops ≠ [] ∧ Chain.inputChannel ops = none ∧ v = none ∧ avail' = avail) ∨
      ∃ ch, Chain.inputChannel ops = some ch ∧
        InputChannel.read ⟨avail, true⟩ = some (v, ⟨avail', true⟩)) :
    ∃ a s', Steps CancelStep s [a] s' ∧ s'.engine.cancel = s.engine.cancel ∧
      Live n pipelines ss i avail' ⟨r.1, r.2, Thread.phaseAfter r.1⟩ s' := by
  obtain ⟨p, hp⟩ := h.exists_pipeline
  obtain ⟨rfl, hpending, -⟩ := h.shown_ops hp
  have hzero := h.stopped.closing i h.thread (by rw [hpoint]; rfl)
  have hphase : shownPhase s.engine.running
      (some (if Chain.isDone r.1 then RunPoint.close else .test)) (s.closing i) r.1.length =
        Thread.phaseAfter r.1 := by
    rw [hzero, shownPhase_some, phase_pulled]
  rcases hinput with ⟨hne, hnone, rfl, rfl⟩ | ⟨ch, hch, hread⟩
  · exact h.work hpiece hpending rfl (.pull hpoint hp hne hnone hr) (.out _ none) rfl hphase h.channel
  · rw [← h.channel ch hch] at hread
    refine h.work hpiece hpending rfl (.read hpoint hp hch hr) (.read hread) rfl hphase
      fun ch' hch' => ?_
    obtain rfl : ch = ch' := Option.some.inj (hch.symm.trans hch')
    exact Function.update_self ..

/-- A thread in its loop ends, when it ends after the next pull and after a stop request. -/
theorem Live.finishes_loop (h : Live n pipelines ss i avail ⟨ops, [], .pulling⟩ s)
    (hpull : ∀ s', Live n pipelines ss i avail ⟨ops, [], .pulling⟩ s' →
      (s'.engine.slots i).thread = some .execute → Finishes n i s')
    (hstop : ∀ s', Live n pipelines ss i avail ⟨ops, [], .closing 0⟩ s' → Finishes n i s') :
    Finishes n i s := by
  obtain ⟨t, s', hsteps, hcancel, hnext⟩ := h.pulls
  rcases hnext with ⟨hlive, hpoint⟩ | hlive
  · exact (hpull s' hlive hpoint).of_steps hsteps hcancel
  · exact (hstop s' hlive).of_steps hsteps hcancel

/-- A thread that has closed its operators ends. -/
theorem Live.finishes_closed (h : Live n pipelines ss i avail ⟨ops, [], .closing ops.length⟩ s) :
    Finishes n i s := by
  have hleave : ∀ {s : Program U}, Live n pipelines ss i avail ⟨ops, [], .closing ops.length⟩ s →
      (s.engine.slots i).thread = some .leave → Finishes n i s := by
    intro s h hpoint
    obtain ⟨p, hp⟩ := h.exists_pipeline
    obtain ⟨hops, hpending, -⟩ := h.shown_ops hp
    obtain ⟨hstep, hlive⟩ := h.control hpending (.leave hpoint hp) hp hops rfl
    exact ⟨_, _, .single hstep, rfl, hlive.stopped, by simp [put]⟩
  obtain ⟨p, hp⟩ := h.exists_pipeline
  obtain ⟨hops, hpending, hphase⟩ := h.shown_ops hp
  cases hpoint : (s.engine.slots i).thread with
  | none => exact absurd hpoint h.thread
  | some point =>
    rw [hpoint, shownPhase_some] at hphase
    cases point with
    | close =>
      have hk : s.closing i = p.root.length := (Phase.closing.inj hphase).trans (by rw [hops])
      obtain ⟨hstep, hlive⟩ := h.control hpending (.closed hpoint hp hk) hp hops
        ((shownPhase_some ..).trans (congrArg Phase.closing (congrArg List.length hops)))
      exact (hleave hlive (by simp [put])).of_steps (.single hstep) rfl
    | leave => exact hleave h hpoint
    | finished => exact ⟨[], s, .nil s, rfl, h.stopped, hpoint⟩
    | _ => cases hphase

/-- The close of an operator. -/
theorem Live.close {m : Nat} (hpiece : Piece i m ss) {k : Nat}
    (h : Live n pipelines ss i avail ⟨ops, [], .closing k⟩ s) (hk : k < ops.length) {fuel : Nat}
    {r : Chain U × List Output} (hr : Chain.closeAt fuel k ops = some r) :
    ∃ a s', Steps CancelStep s [a] s' ∧ s'.engine.cancel = s.engine.cancel ∧
      Live n pipelines ss i avail ⟨r.1, r.2, .closing (k + 1)⟩ s' := by
  obtain ⟨p, hp⟩ := h.exists_pipeline
  obtain ⟨rfl, hpending, hphase⟩ := h.shown_ops hp
  cases hpoint : (s.engine.slots i).thread with
  | none => exact absurd hpoint h.thread
  | some point =>
    rw [hpoint, shownPhase_some] at hphase
    cases point with
    | close =>
      obtain rfl : s.closing i = k := Phase.closing.inj hphase
      have hnext : shownPhase s.engine.running (s.engine.slots i).thread (s.closing i + 1)
          r.1.length = .closing (s.closing i + 1) := by
        rw [hpoint]
        exact shownPhase_some ..
      exact h.work hpiece hpending rfl (.close hpoint hp hk hr) (.out _ none) rfl hnext h.channel
    | leave => exact absurd (Phase.closing.inj hphase) (Nat.ne_of_gt hk)
    | finished => exact absurd (Phase.closing.inj hphase) (Nat.ne_of_gt hk)
    | _ => cases hphase

end

/-- A thread that can come to its end does, whatever point it has reached. -/
theorem Live.finishes {m : Nat} (hpiece : Piece i m ss) (hends : Thread.Ends avail th)
    (h : Live n pipelines ss i avail th s) : Finishes n i s := by
  induction hends generalizing s with
  | @finished avail th hth =>
    obtain ⟨ops, outs, phase⟩ := th
    obtain ⟨rfl, rfl⟩ : outs = [] ∧ phase = .closing ops.length := hth
    exact h.finishes_closed
  | call _ ih =>
    obtain ⟨a, s', hstep, hcancel, hlive⟩ := h.call hpiece
    exact (ih hlive).of_steps hstep hcancel
  | pull hne hinput hr _ _ ihnext ihstop =>
    refine h.finishes_loop (fun s' hlive hpoint => ?_) fun s' hlive => ihstop hlive
    obtain ⟨a, s'', hstep, hcancel, hnext⟩ :=
      hlive.pull hpiece hpoint hr (.inl ⟨hne, hinput, rfl, rfl⟩)
    exact (ihnext hnext).of_steps hstep hcancel
  | read hinput hr _ _ ihnext ihstop =>
    refine h.finishes_loop (fun s' hlive hpoint => ?_) fun s' hlive => ihstop hlive
    obtain ⟨a, s'', hstep, hcancel, hnext⟩ := hlive.pull hpiece hpoint hr (.inr ⟨_, hinput, rfl⟩)
    exact (ihnext hnext).of_steps hstep hcancel
  | readEnd hinput hr _ _ ihnext ihstop =>
    refine h.finishes_loop (fun s' hlive hpoint => ?_) fun s' hlive => ihstop hlive
    obtain ⟨a, s'', hstep, hcancel, hnext⟩ := hlive.pull hpiece hpoint hr (.inr ⟨_, hinput, rfl⟩)
    exact (ihnext hnext).of_steps hstep hcancel
  | close hk hr _ ih =>
    obtain ⟨a, s', hstep, hcancel, hnext⟩ := h.close hpiece hk hr
    exact (ih hnext).of_steps hstep hcancel

end

/-! ## `cancel` returns -/

section

variable {bound : Nat} {source : SourcePhysicalOperator U} {es : List (Event Record)}
  {t : List CancelAction}

/-- The slot whose thread `cancel` waits for: the threads before it have finished, and so it waits
for nobody. -/
theorem Stopped.finishes (h : Stopped n s) (hlen : n = pipelines.length)
    (hdelivers : Job.Delivers bound source es pipelines)
    (ht : Steps CancelStep (start n pipelines) t s) {i : Nat} (hpoint : s.engine.cancel = .join i) :
    Finishes n i s := by
  obtain ⟨-, bs, hbs, -⟩ := steps_shown hlen.le ht
  have hi : i < n := h.slotCount ▸ h.joining.inside i hpoint
  have hbefore : ∀ j < i, ((shown pipelines s).threads j).Finished := fun j hj =>
    h.thread_finished (by omega) (h.joined j (by omega) (by
      rw [hpoint]
      exact Nat.not_le.mpr hj))
  obtain ⟨avail, hends, hchannel⟩ := hdelivers.ends hbs (hlen ▸ hi) hbefore
  obtain ⟨ss, hpiece, hfits⟩ := hdelivers.pieces.fits i
  have hlocal := Steps.invariant (I := Thread.Fits ss)
    (fun _ _ _ hp hstep => (hp.stopStep hpiece.last hstep).1) hfits
    ((Job.stopSteps_spec rfl hbs).2 i)
  have hthread := h.joining.joinable i (h.slotCount.symm ▸ hi) (by
    rw [hpoint]
    exact Nat.le_refl i)
  have hlive : Live n pipelines ss i avail ((shown pipelines s).threads i) s :=
    ⟨h, hthread, rfl, hlocal, hchannel⟩
  exact hlive.finishes hpiece hends

/-- How many steps of `cancel` are left at most. -/
def toIdle (n : Nat) : CancelPoint → Nat
  | .idle => 0
  | .stop i => 3 * (n - i) + 1
  | .join i => 3 * (n - i)
  | .clear i => 3 * (n - i) - 1

/-- `cancel` returns: each thread that it waits for comes to its end. -/
theorem Stopped.returns (h : Stopped n s) (hlen : n = pipelines.length)
    (hdelivers : Job.Delivers bound source es pipelines)
    (ht : Steps CancelStep (start n pipelines) t s) :
    ∃ t' s', Steps CancelStep s t' s' ∧ s'.engine.cancel = .idle := by
  let I : Nat → Program U → Prop := fun k p =>
    (∃ t, Steps CancelStep (start n pipelines) t p) ∧ Stopped n p ∧ toIdle n p.engine.cancel = k
  have hrank : ∀ k p, I k p → p.engine.cancel = .idle ∨
      ∃ as q j, Steps CancelStep p as q ∧ I j q ∧ j < k := by
    rintro k p ⟨⟨t, ht⟩, hstopped, rfl⟩
    have hcount := hstopped.slotCount
    -- a step of `cancel` lowers the rank
    have hnext : ∀ {p' : Program U} {t' : List CancelAction} {e : SlotEngine U},
        Steps CancelStep p t' p' → Stopped n p' → p'.engine.cancellerStep = some e →
        toIdle n e.cancel < toIdle n p.engine.cancel →
        ∃ as q j, Steps CancelStep p as q ∧ I j q ∧ j < toIdle n p.engine.cancel := by
      intro p' t' e hsteps hp' he hlt
      have hall := hsteps.append (.single (.canceller he))
      exact ⟨_, _, _, hall, ⟨⟨_, ht.append hall⟩, hp'.cancels (SlotEngine.cancellerStep_inv he), rfl⟩,
        hlt⟩
    cases hpoint : p.engine.cancel with
    | idle => exact Or.inl rfl
    | stop i =>
      right
      rw [← hpoint]
      by_cases hi : i < n
      · refine hnext (.nil p) hstopped
          (by unfold SlotEngine.cancellerStep; rw [hpoint]; exact if_pos (hcount.symm ▸ hi)) ?_
        rw [hpoint]
        exact Nat.lt_succ_self _
      · refine hnext (.nil p) hstopped
          (by unfold SlotEngine.cancellerStep; rw [hpoint]; exact if_neg (hcount.symm ▸ hi)) ?_
        rw [hpoint]
        exact Nat.succ_pos _
    | join i =>
      right
      have hi : i < n := hcount ▸ hstopped.joining.inside i hpoint
      obtain ⟨t', p', hsteps, hcancel, hp', hfinished⟩ :=
        hstopped.finishes hlen hdelivers ht hpoint
      rw [← hpoint]
      refine hnext hsteps hp'
        (by unfold SlotEngine.cancellerStep; rw [hcancel, hpoint]; exact if_pos hfinished) ?_
      rw [hpoint]
      show 3 * (n - i) - 1 < 3 * (n - i)
      omega
    | clear i =>
      right
      have hi := hstopped.clearing i hpoint
      rw [← hpoint]
      refine hnext (.nil p) hstopped (by unfold SlotEngine.cancellerStep; rw [hpoint]) ?_
      rw [hpoint]
      show 3 * (n - (i + 1)) + 1 < 3 * (n - i) - 1
      omega
  obtain ⟨t', s', -, hsteps, -, hidle⟩ := Steps.reaches hrank ⟨⟨t, ht⟩, h, rfl⟩
  exact ⟨t', s', hsteps, hidle⟩

end

/-! ## `cancel` can be called -/

/-- Behind `start_all` every slot has its thread. -/
theorem Sound.ready (h : Sound n pipelines s) (hsettled : s.engine.Settled) : s.engine.Ready :=
  ⟨hsettled, fun i hi => (h.during.spawned i (h.during.slotCount ▸ hi) (hsettled i)).1⟩

/-- `execute` comes to the end of `start_all`, and then `cancel` can be called. -/
theorem Sound.exists_cancel (h : Sound n pipelines s) (hidle : s.engine.cancel = .idle) :
    ∃ t s', Steps CancelStep s (t ++ [.cancel]) s' := by
  let I : Nat → Program U → Prop := fun k p =>
    Sound n pipelines p ∧ p.engine.cancel = .idle ∧ toPoll n p.engine.execute = k
  have hrank : ∀ k p, I k p → p.engine.Settled ∨
      ∃ as q j, Steps CancelStep p as q ∧ I j q ∧ j < k := by
    rintro k p ⟨hp, hcancel, rfl⟩
    by_cases hsettled : p.engine.Settled
    · exact Or.inl hsettled
    · obtain ⟨e, he, hlt⟩ := hp.exists_toPoll hsettled
      have hstep : Step p .executor { p with engine := e } := .executor he
      exact Or.inr ⟨_, _, _, .single (.program hstep),
        ⟨hp.step hstep, hstep.cancel.trans hcancel, rfl⟩, hlt⟩
  obtain ⟨t, s', -, hsteps, ⟨hs', hcancel, -⟩, hsettled⟩ := Steps.reaches hrank ⟨h, hidle, rfl⟩
  exact ⟨t, _, hsteps.append (.single (.cancel hcancel (hs'.ready hsettled)))⟩

/-- Before the call. -/
theorem sound_of_notMem_cancel {t : List CancelAction}
    (h : Steps CancelStep (start n pipelines) t s) (hmem : .cancel ∉ t) :
    Sound n pipelines s ∧ s.engine.cancel = .idle := by
  refine h.invariant_of_notMem (I := fun s => Sound n pipelines s ∧ s.engine.cancel = .idle)
    (fun p a q hp hstep ha => ?_) ⟨sound_start n pipelines, rfl⟩ hmem
  cases hstep with
  | program hstep => exact ⟨hp.1.step hstep, hstep.cancel.trans hp.2⟩
  | cancel => exact absurd rfl ha
  | canceller he => exact absurd hp.2 (SlotEngine.cancellerStep_inv he).ne_idle

end Program

open ExecutionGraph in
/-- **Cancelling a program.** A program submits the pipelines of a linear graph to a slot engine with
a slot for each, and calls `execute`; another thread calls `cancel` at any time when every slot has
its thread. Whatever the threads do, such a time comes, from the call on `cancel` can always return,
and when it has returned the sink has received what the operators make of an initial part of the
events, where each window passes on an initial part of its results. -/
theorem cancelled_means {g : DataflowGraph U} {source : SourceLogicalOperator U}
    {transforms : List (LogicalImpl U)} {sink : SinkLogicalOperator U}
    (hg : g.IsLinear source transforms sink) {keys : List OperatorId}
    (hkeys : keys.Perm g.inDegreeKeys) {es : List (Event Record)}
    (hes : SourcePhysicalOperator.Yields source.func source.captured es)
    (hdisorder : BoundedDisorder source.allowedLateness es) {bound : Nat}
    (hbound : maxTime es ≤ bound) (hwithin : ∀ impl ∈ transforms, impl.Within bound)
    (hkeeps : ∀ impl ∈ transforms.takeWhile (fun impl => !impl.isWindow), impl.KeepsTime) :
    ∃ k pipelines, (∀ fuel, k ≤ fuel → build fuel keys g = some pipelines) ∧
      ∀ t s, Steps Program.CancelStep (Program.start pipelines.length pipelines) t s →
        (.cancel ∉ t → ∃ t' s', Steps Program.CancelStep s (t' ++ [.cancel]) s') ∧
        (.cancel ∈ t →
          (∃ t' s', Steps Program.CancelStep s t' s' ∧ s'.engine.cancel = .idle) ∧
          (s.engine.cancel = .idle →
            StoppedDenotes transforms es (sinks (t.flatMap Program.cancelCalls)))) := by
  obtain ⟨k, pipelines, hbuild, hmeans⟩ :=
    stopped_means hg hkeys hes hdisorder hbound hwithin hkeeps
  have hpipelines := Option.some.inj
    ((hbuild _ (Nat.le_max_left k (transforms.length + 2))).symm.trans
      (hg.build_eq hkeys (Nat.le_max_right k (transforms.length + 2))))
  have hdelivers := hg.delivers hes hdisorder hbound hwithin hkeeps
  rw [← hpipelines] at hdelivers
  refine ⟨k, pipelines, hbuild, fun t s ht => ⟨fun hmem => ?_, fun hmem => ?_⟩⟩
  · obtain ⟨hsound, hidle⟩ := Program.sound_of_notMem_cancel ht hmem
    exact hsound.exists_cancel hidle
  · obtain ⟨haccounted, bs, hbs, hcalls⟩ := Program.steps_shown (Nat.le_refl _) ht
    have hstopped := haccounted.stopped (Program.running_of_mem_cancel ht hmem)
    refine ⟨hstopped.returns rfl hdelivers ht, fun hidle => ?_⟩
    rw [← hcalls]
    exact hmeans bs _ hbs (hstopped.finished rfl hidle)

/-- `main`, cancelled: in a run where `cancel` has been called and has returned, each pipeline
has taken an initial part of what it was given. There is such a run. -/
theorem cancelled_means_main : ∃ g k pipelines, Main.graph = some g ∧
    (∀ fuel, k ≤ fuel → ExecutionGraph.build fuel g.inDegreeKeys g = some pipelines) ∧
    (∃ t s, Steps Program.CancelStep (Program.start pipelines.length pipelines) t s ∧
      .cancel ∈ t ∧ s.engine.cancel = .idle) ∧
    ∀ t s, Steps Program.CancelStep (Program.start pipelines.length pipelines) t s → .cancel ∈ t →
      s.engine.cancel = .idle → StoppedDenotes
        [.map ⟨Main.double, 0⟩, .window ⟨countTumblingWindow 5, Main.sum, 0⟩] Main.inputs
        (sinks (t.flatMap Program.cancelCalls)) := by
  obtain ⟨g, hgraph, hg⟩ := Main.graph_isLinear
  obtain ⟨k, pipelines, hbuild, h⟩ := cancelled_means hg (List.Perm.refl g.inDegreeKeys)
    Main.count_yields Main.inputs_disorder Main.inputs_bound Main.within Main.keepsTime
  refine ⟨g, k, pipelines, hgraph, hbuild, ?_, fun t s ht hmem => ((h t s ht).2 hmem).2⟩
  obtain ⟨t, s, ht⟩ := (h [] _ (.nil _)).1 List.not_mem_nil
  have hmem : CancelAction.cancel ∈ t ++ [.cancel] := by simp
  obtain ⟨⟨t', s', ht', hidle⟩, -⟩ := (h _ s ht).2 hmem
  exact ⟨_, s', ht.append ht', List.mem_append_left t' hmem, hidle⟩

end Xtream
