import Xtream.Engine.Progress
import Xtream.Engine.Submissions
import Xtream.Lib.Runs

/-!
# A job on a slot engine (`src/main.cpp`, `src/engine/slot_engine.cpp`)

The program submits the pipelines of a job to a slot engine and calls `execute`. Here the threads of
the slots make their channel calls one at a time, and the steps of `execute` come between them: this
is the slot engine and the job of threads and channels in one.

* `Sound`: what holds in every run;
* `job`: the job that the program shows, `steps_job`: every run of the program is a run of it.
-/

namespace Xtream

open KahnNetwork

/-- A slot engine with the channels of its pipelines. -/
structure Program (U : Type) where
  engine : SlotEngine U
  /-- The calls that the thread of a slot is about to make. -/
  pending : Nat → List Output := fun _ => []
  /-- The operator that the thread of a slot closes next. -/
  closing : Nat → Nat := fun _ => 0
  channels : Channels := fun _ => {}

inductive ProgramAction
  /-- A step of `execute`. -/
  | executor
  /-- A step of the thread of a slot that calls no operator. -/
  | control (i : Nat)
  /-- A call of the thread of a slot. -/
  | act (i : Nat) (a : Action)

namespace Program

variable {U : Type}

/-- What a thread leaves: its slot, the operator to close next, its calls, and the channels. -/
def put (s : Program U) (i : Nat) (slot : Slot U) (k : Nat) (outs : List Output) (chs : Channels) :
    Program U where
  engine := s.engine.setSlot i slot
  pending := Function.update s.pending i outs
  closing := Function.update s.closing i k
  channels := chs

/-- The steps of `Slot::run` and `Pipeline::run` that call no operator; `closing` is the operator to
close next. -/
inductive Control (closing : Nat) (s : Slot U) : Slot U → Prop
  | begin {p : Pipeline U} : s.thread = some .call → s.pipeline = some p → Control closing s
      { s with pipeline := some { p with running := true }, thread := some .test }
  | test {p : Pipeline U} : s.thread = some .test → s.pipeline = some p → Control closing s
      { s with thread := some (if p.running then .execute else .close) }
  | closed {p : Pipeline U} : s.thread = some .close → s.pipeline = some p →
      closing = p.root.length → Control closing s { s with thread := some .leave }
  | leave {p : Pipeline U} : s.thread = some .leave → s.pipeline = some p →
      Control closing s { s with running := false, thread := some .finished }

/-- `root_->execute(dummy)` and `close` of an operator: the action, the slot behind it, the operator
to close next and the calls made. -/
inductive Work (s : Slot U) (k : Nat) : Action → Slot U → Nat → List Output → Prop
  | pull {p : Pipeline U} {fuel : Nat} {r : Chain U × List Output} : s.thread = some .execute →
      s.pipeline = some p → p.root ≠ [] → Chain.inputChannel p.root = none →
      Chain.execute fuel none p.root Pipeline.dummy = some r →
      Work s k (.out none)
        { s with
          pipeline := some { p with root := r.1 }
          thread := some (if Chain.isDone r.1 then .close else .test) } k r.2
  | read {p : Pipeline U} {fuel : Nat} {r : Chain U × List Output} {ch : ChannelId}
      {v : Option (Event Record)} : s.thread = some .execute →
      s.pipeline = some p → Chain.inputChannel p.root = some ch →
      Chain.execute fuel v p.root Pipeline.dummy = some r →
      Work s k (.read ch v)
        { s with
          pipeline := some { p with root := r.1 }
          thread := some (if Chain.isDone r.1 then .close else .test) } k r.2
  | close {p : Pipeline U} {fuel : Nat} {r : Chain U × List Output} : s.thread = some .close →
      s.pipeline = some p → k < p.root.length → Chain.closeAt fuel k p.root = some r →
      Work s k (.out none) { s with pipeline := some { p with root := r.1 } } (k + 1) r.2

inductive Step : Program U → ProgramAction → Program U → Prop
  | executor {s : Program U} {e : SlotEngine U} : s.engine.executorStep = some e →
      Step s .executor { s with engine := e }
  | control {s : Program U} {i : Nat} {slot : Slot U} : s.pending i = [] →
      Control (s.closing i) (s.engine.slots i) slot →
      Step s (.control i) (s.put i slot (s.closing i) [] s.channels)
  | call {s : Program U} {i : Nat} {o : Output} {outs : List Output} {chs : Channels} :
      s.pending i = o :: outs → Effect s.channels o.action chs →
      Step s (.act i o.action) (s.put i (s.engine.slots i) (s.closing i) outs chs)
  | work {s : Program U} {i : Nat} {a : Action} {slot : Slot U} {k : Nat} {outs : List Output}
      {chs : Channels} : s.pending i = [] → Work (s.engine.slots i) (s.closing i) a slot k outs →
      Effect s.channels a chs → Step s (.act i a) (s.put i slot k outs chs)

/-- The pipelines as they are submitted. -/
def submissions (pipelines : List (Chain U)) : List (Pipeline U) :=
  pipelines.map fun ops => { root := ops }

/-- `execute` has been called on an engine with `n` slots. -/
def start (n : Nat) (pipelines : List (Chain U)) : Program U where
  engine := { SlotEngine.loaded n (submissions pipelines) with running := true, execute := .assign 0 }

/-- The steps of the job. -/
def jobAct : ProgramAction → Option (Nat × Action)
  | .act i a => some (i, a)
  | _ => none

def jobActs (t : List ProgramAction) : List (Nat × Action) := t.filterMap jobAct

/-! ## The slots -/

theorem Control.ran {k : Nat} {s s' : Slot U} (h : Control k s s') : s.Ran s' := by
  cases h with
  | @begin p hthread hp =>
    exact ⟨by simp [Slot.tag, hp, Pipeline.tag], ⟨by simp [hthread], by simp [hthread]⟩, by simp,
      by simp, by simp⟩
  | @test p hthread hp =>
    refine ⟨rfl, ⟨by simp [hthread], by simp [hthread]⟩, ⟨by simp, ?_⟩, ?_, by simp [hp]⟩
    · cases p.running <;> simp
    · cases p.running <;> simp
  | @closed p hthread hp _ =>
    exact ⟨rfl, ⟨by simp [hthread], by simp [hthread]⟩, by simp, by simp, by simp [hp]⟩
  | @leave p hthread hp =>
    exact ⟨rfl, ⟨by simp [hthread], by simp [hthread]⟩, by simp, by simp, by simp [hp]⟩

/-- Operators neither come nor go. -/
theorem tag_root {p : Pipeline U} {root : Chain U} (h : root.length = p.root.length) :
    ({ p with root } : Pipeline U).tag = p.tag := by
  refine congrArg (p.number, ·) ?_
  rw [Bool.eq_iff_iff, List.isEmpty_iff, List.isEmpty_iff, ← List.length_eq_zero_iff, h,
    List.length_eq_zero_iff]

theorem Work.ran {s s' : Slot U} {k k' : Nat} {a : Action} {outs : List Output}
    (h : Work s k a s' k' outs) : s.Ran s' := by
  cases h with
  | @pull p fuel r hthread hp _ _ hr =>
    refine ⟨by simp [Slot.tag, hp, tag_root (Chain.execute_length hr)],
      ⟨by simp [hthread], by simp [hthread]⟩, ⟨by simp, ?_⟩, ?_, by simp⟩
    · cases Chain.isDone r.1 <;> simp
    · cases Chain.isDone r.1 <;> simp
  | @read p fuel r ch v hthread hp _ hr =>
    refine ⟨by simp [Slot.tag, hp, tag_root (Chain.execute_length hr)],
      ⟨by simp [hthread], by simp [hthread]⟩, ⟨by simp, ?_⟩, ?_, by simp⟩
    · cases Chain.isDone r.1 <;> simp
    · cases Chain.isDone r.1 <;> simp
  | @close p fuel r hthread hp _ hr =>
    exact ⟨by simp [Slot.tag, hp, tag_root (Chain.closeAt_length hr)],
      ⟨by simp [hthread], by simp [hthread]⟩, by simp [hthread], by simp [hthread], by simp⟩

/-! ## The job that the program shows -/

/-- The phase of the thread of a slot. -/
def phase (point : Option RunPoint) (closing length : Nat) : Phase :=
  match point with
  | some .close => .closing closing
  | some .leave => .closing length
  | some .finished => .closing length
  | _ => .pulling

/-- The threads of the pipelines: those in a slot, and those that wait to be moved into one. -/
def threads (pipelines : List (Chain U)) (s : Program U) (i : Nat) : Thread U :=
  match (s.engine.slots i).pipeline with
  | none => (Job.start pipelines).threads i
  | some p => ⟨p.root, s.pending i, phase (s.engine.slots i).thread (s.closing i) p.root.length⟩

/-- The job that the program shows. -/
def job (pipelines : List (Chain U)) (s : Program U) : Job U := ⟨threads pipelines s, s.channels⟩

/-- What holds of the threads of the slots. -/
structure Sound (n : Nat) (pipelines : List (Chain U)) (s : Program U) : Prop where
  during : SlotEngine.During (SlotEngine.loaded n (submissions pipelines)) s.engine
  /-- Nobody stops a pipeline. -/
  running : ∀ i p, (s.engine.slots i).pipeline = some p →
    (s.engine.slots i).thread = some .test ∨ (s.engine.slots i).thread = some .execute →
      p.running = true
  /-- The operators are closed from the first one on. -/
  closing : ∀ i, phase (s.engine.slots i).thread 0 0 = .pulling → s.closing i = 0
  /-- A thread that has calls to make runs the operators. -/
  pending : ∀ i, s.pending i ≠ [] →
    (s.engine.slots i).thread = some .test ∨ (s.engine.slots i).thread = some .close
  outside : ∀ i, n ≤ i → (s.engine.slots i).pipeline = none

section

variable {n : Nat} {pipelines : List (Chain U)} {s s' : Program U}

theorem loaded_pipeline {i : Nat} {p : Pipeline U}
    (h : (SlotEngine.loaded n (submissions pipelines)).pipelines[i]? = some p) :
    pipelines[i]? = some p.root := by
  simp only [SlotEngine.loaded, submissions, List.getElem?_mapIdx, List.getElem?_map,
    Option.map_map, Option.map_eq_some_iff] at h
  obtain ⟨ops, hops, rfl⟩ := h
  exact hops

theorem sound_start (n : Nat) (pipelines : List (Chain U)) : Sound n pipelines (start n pipelines) :=
  ⟨(SlotEngine.calm_loaded n (submissions pipelines)).during, fun _ _ hp => (by cases hp),
    fun _ _ => rfl, fun _ hne => absurd rfl hne, fun _ _ => rfl⟩

theorem job_start (n : Nat) (pipelines : List (Chain U)) :
    job pipelines (start n pipelines) = Job.start pipelines := rfl

/-- Only a slot of the engine has a thread. -/
theorem Sound.lt_of_thread (h : Sound n pipelines s) {i : Nat}
    (hthread : (s.engine.slots i).thread ≠ none) : i < n := by
  by_contra hi
  exact hthread (h.during.outside i (Nat.not_lt.mp hi)).1

/-! ### A step of `execute` -/

/-- What a step of `execute` does to a slot: nothing the thread sees, or it gives the slot its
pipeline, or it makes the thread of the slot. -/
inductive Served (n : Nat) (pipelines : List (Chain U)) (i : Nat) (slot slot' : Slot U) : Prop
  | same : slot'.thread = slot.thread → slot'.pipeline = slot.pipeline →
      Served n pipelines i slot slot'
  | assigned {p : Pipeline U} : i < n → slot.thread = none → slot'.thread = none →
      slot.pipeline = none → slot'.pipeline = some p → pipelines[i]? = some p.root →
      Served n pipelines i slot slot'
  | spawned : slot.thread = none → slot'.thread = some .call → slot'.pipeline = slot.pipeline →
      Served n pipelines i slot slot'

/-- The slot that a step of `execute` changes. -/
theorem served_setSlot {e : SlotEngine U} {i : Nat} (slot : Slot U)
    (h : Served n pipelines i (e.slots i) slot) (j : Nat) :
    Served n pipelines j (e.slots j) ((e.setSlot i slot).slots j) := by
  by_cases hj : j = i
  · subst hj
    rw [SlotEngine.setSlot_slots_self]
    exact h
  · rw [SlotEngine.setSlot_slots_of_ne _ _ _ hj]
    exact .same rfl rfl

theorem Sound.served (h : Sound n pipelines s) {e : SlotEngine U}
    (hstep : SlotEngine.Executes s.engine e) (j : Nat) :
    Served n pipelines j (s.engine.slots j) (e.slots j) := by
  have hduring := h.during
  cases hstep with
  | @assign i p hpoint hp hi =>
    refine served_setSlot ((s.engine.slots i).assign p) ?_ j
    have hnot : ¬ s.engine.execute.Assigned i := by simp [hpoint, ExecutePoint.Assigned]
    have hfresh := hduring.slots i (hduring.slotCount ▸ hi) hnot
    have hroot : pipelines[i]? = some p.root := by
      have hlen := hduring.length i hpoint
      have hlt := (List.getElem?_eq_some_iff.mp hp).1
      obtain ⟨q, hq⟩ : ∃ q, (SlotEngine.loaded n (submissions pipelines)).pipelines[i]? = some q :=
        ⟨_, List.getElem?_eq_getElem (hlen ▸ hlt)⟩
      obtain ⟨q', hq', -, hsame⟩ := hduring.pipelines i q hq
      obtain rfl := Option.some.inj (hp.symm.trans hq')
      rw [hsame hnot]
      exact loaded_pipeline hq
    exact .assigned (p := p) (Nat.lt_of_lt_of_eq hi hduring.slotCount) (by rw [hfresh]; rfl)
      (by rw [hfresh]; rfl) (by rw [hfresh]; rfl) rfl hroot
  | @mark i _ _ _ => exact served_setSlot (s.engine.slots i).mark (.same rfl rfl) j
  | @spawn i hpoint _ =>
    refine served_setSlot (s.engine.slots i).spawn (.spawned ?_ rfl rfl) j
    exact (hduring.waiting i (hduring.point i hpoint)
      (by simp [hpoint, ExecutePoint.Spawned])).1
  | _ => exact .same rfl rfl

theorem Sound.executor (h : Sound n pipelines s) {e : SlotEngine U}
    (hstep : SlotEngine.Executes s.engine e) : Sound n pipelines { s with engine := e } := by
  refine ⟨h.during.executor hstep, fun i p hp hthread => ?_, fun i hphase => ?_, fun i hne => ?_,
    fun i hi => ?_⟩
  · cases h.served hstep i with
    | same hsame hpipeline => exact h.running i p (hpipeline ▸ hp) (hsame ▸ hthread)
    | assigned _ _ hnone => simp [hnone] at hthread
    | spawned _ hcall => simp [hcall] at hthread
  · cases h.served hstep i with
    | same hsame => exact h.closing i (hsame ▸ hphase)
    | assigned _ hnone => exact h.closing i (by rw [hnone]; rfl)
    | spawned hnone => exact h.closing i (by rw [hnone]; rfl)
  · cases h.served hstep i with
    | same hsame => exact hsame ▸ h.pending i hne
    | assigned _ hnone => simpa [hnone] using h.pending i hne
    | spawned hnone => simpa [hnone] using h.pending i hne
  · cases h.served hstep i with
    | same _ hpipeline => exact hpipeline.trans (h.outside i hi)
    | assigned hlt => exact absurd hlt (Nat.not_lt.mpr hi)
    | spawned _ _ hpipeline => exact hpipeline.trans (h.outside i hi)

/-- A thread that has not been made shows as the thread of its pipeline before the first step. -/
theorem Sound.threads_executor (h : Sound n pipelines s) {e : SlotEngine U}
    (hstep : SlotEngine.Executes s.engine e) :
    threads pipelines { s with engine := e } = threads pipelines s := by
  funext i
  unfold threads
  cases h.served hstep i with
  | same hthread hpipeline => simp only [hthread, hpipeline]
  | @assigned p _ hnone hnone' hpipeline hpipeline' hroot =>
    have hpending : s.pending i = [] := by
      by_contra hne
      simpa [hnone] using h.pending i hne
    simp only [hpipeline, hpipeline', hnone', hpending, phase, Job.start, hroot]
    rfl
  | spawned hnone hcall hpipeline => simp only [hpipeline, hnone, hcall, phase]

/-! ### A step of the thread of a slot -/

/-- The thread of a slot with a pipeline. -/
theorem threads_of_pipeline {i : Nat} {p : Pipeline U}
    (hp : (s.engine.slots i).pipeline = some p) : threads pipelines s i =
      ⟨p.root, s.pending i, phase (s.engine.slots i).thread (s.closing i) p.root.length⟩ := by
  unfold threads
  rw [hp]

theorem threads_put {i k : Nat} {slot : Slot U} {outs : List Output} {chs : Channels}
    {p : Pipeline U} (hp : slot.pipeline = some p) : threads pipelines (s.put i slot k outs chs) =
      Function.update (threads pipelines s) i ⟨p.root, outs, phase slot.thread k p.root.length⟩ := by
  funext j
  by_cases hj : j = i
  · subst hj
    rw [Function.update_self, threads_of_pipeline (p := p) (by simpa [put] using hp)]
    simp [put]
  · rw [Function.update_of_ne hj]
    simp [threads, put, hj]

/-- What a step of a thread leaves behind is sound. -/
theorem Sound.put (h : Sound n pipelines s) {i k : Nat} {slot : Slot U} {outs : List Output}
    {chs : Channels} (hi : i < n)
    (hduring : SlotEngine.During (SlotEngine.loaded n (submissions pipelines))
      (s.engine.setSlot i slot))
    (hrunning : ∀ p, slot.pipeline = some p →
      slot.thread = some .test ∨ slot.thread = some .execute → p.running = true)
    (hclosing : phase slot.thread 0 0 = .pulling → k = 0)
    (hpending : outs ≠ [] → slot.thread = some .test ∨ slot.thread = some .close) :
    Sound n pipelines (s.put i slot k outs chs) := by
  refine ⟨hduring, fun j p hp hthread => ?_, fun j hphase => ?_, fun j hne => ?_, fun j hj => ?_⟩
  · by_cases hj : j = i
    · subst hj
      simp only [Program.put, SlotEngine.setSlot_slots_self] at hp hthread
      exact hrunning p hp hthread
    · simp only [Program.put, SlotEngine.setSlot_slots_of_ne _ _ _ hj] at hp hthread
      exact h.running j p hp hthread
  · by_cases hj : j = i
    · subst hj
      simp only [Program.put, SlotEngine.setSlot_slots_self] at hphase
      simpa [Program.put] using hclosing hphase
    · simp only [Program.put, SlotEngine.setSlot_slots_of_ne _ _ _ hj] at hphase
      simpa [Program.put, hj] using h.closing j hphase
  · by_cases hj : j = i
    · subst hj
      simp only [Program.put, Function.update_self] at hne
      simpa [Program.put] using hpending hne
    · simp only [Program.put, Function.update_of_ne hj] at hne
      simpa [Program.put, hj] using h.pending j hne
  · have hne : j ≠ i := Nat.ne_of_gt (Nat.lt_of_lt_of_le hi hj)
    simpa [Program.put, hne] using h.outside j hj

theorem Sound.control (h : Sound n pipelines s) {i : Nat} {slot : Slot U}
    (hstep : Control (s.closing i) (s.engine.slots i) slot) :
    Sound n pipelines (s.put i slot (s.closing i) [] s.channels) := by
  refine h.put (h.lt_of_thread hstep.ran.live.1)
    (h.during.run (SlotEngine.calm_loaded n _) hstep.ran) (fun p hp hthread => ?_)
    (fun hphase => ?_) (fun hne => absurd rfl hne)
  · cases hstep with
    | begin => cases hp; rfl
    | test hpoint _ => exact h.running i p hp (Or.inl hpoint)
    | closed => simp at hthread
    | leave => simp at hthread
  · cases hstep with
    | begin hpoint _ => exact h.closing i (by rw [hpoint]; rfl)
    | test hpoint _ => exact h.closing i (by rw [hpoint]; rfl)
    | closed => cases hphase
    | leave => cases hphase

/-- A step that calls no operator does not show. -/
theorem Sound.threads_control (h : Sound n pipelines s) {i : Nat} {slot : Slot U}
    (hpending : s.pending i = []) (hstep : Control (s.closing i) (s.engine.slots i) slot) :
    threads pipelines (s.put i slot (s.closing i) [] s.channels) = threads pipelines s := by
  have hself : ∀ {p p' : Pipeline U}, (s.engine.slots i).pipeline = some p →
      slot.pipeline = some p' → p'.root = p.root →
      phase slot.thread (s.closing i) p.root.length =
        phase (s.engine.slots i).thread (s.closing i) p.root.length →
      threads pipelines (s.put i slot (s.closing i) [] s.channels) = threads pipelines s := by
    intro p p' hp hp' hroot hphase
    rw [threads_put hp', Function.update_eq_iff]
    refine ⟨?_, fun _ _ => rfl⟩
    rw [threads_of_pipeline hp, hpending, hroot, hphase]
  cases hstep with
  | begin hpoint hp => exact hself hp rfl rfl (by rw [hpoint]; rfl)
  | @test p hpoint hp =>
    have hrunning := h.running i p hp (Or.inl hpoint)
    exact hself hp hp rfl (by simp [hpoint, hrunning, phase])
  | closed hpoint hp hk => exact hself hp hp rfl (by simp [hpoint, hk, phase])
  | leave hpoint hp => exact hself hp hp rfl (by rw [hpoint]; rfl)

/-- A thread with calls to make is the thread of a slot. -/
theorem Sound.lt_of_pending (h : Sound n pipelines s) {i : Nat} (hne : s.pending i ≠ []) :
    i < n := by
  refine h.lt_of_thread ?_
  rcases h.pending i hne with hthread | hthread <;> simp [hthread]

/-- A thread with calls to make has a pipeline. -/
theorem Sound.pipeline_of_pending (h : Sound n pipelines s) {i : Nat} (hne : s.pending i ≠ []) :
    ∃ p, (s.engine.slots i).pipeline = some p := by
  have hthread := h.pending i hne
  have hi := h.lt_of_pending hne
  have hspawned : s.engine.execute.Spawned i := by
    by_contra hnot
    have hnone := (h.during.waiting i hi hnot).1
    rw [hnone] at hthread
    rcases hthread with hthread | hthread <;> cases hthread
  have hpipeline := (h.during.spawned i hi hspawned).2.2 (by
    rcases hthread with hthread | hthread <;> simp [hthread])
  exact Option.ne_none_iff_exists'.mp hpipeline

theorem Sound.call (h : Sound n pipelines s) {i : Nat} {o : Output} {outs : List Output}
    {chs : Channels} (hpending : s.pending i = o :: outs) :
    Sound n pipelines (s.put i (s.engine.slots i) (s.closing i) outs chs) := by
  refine h.put (h.lt_of_pending (by simp [hpending])) ?_ (h.running i) (h.closing i)
    (fun _ => h.pending i (by simp [hpending]))
  have hsame : s.engine.setSlot i (s.engine.slots i) = s.engine := by
    simp [SlotEngine.setSlot]
  rw [hsame]
  exact h.during

theorem Sound.work (h : Sound n pipelines s) {i k : Nat} {a : Action} {slot : Slot U}
    {outs : List Output} {chs : Channels}
    (hstep : Work (s.engine.slots i) (s.closing i) a slot k outs) :
    Sound n pipelines (s.put i slot k outs chs) := by
  refine h.put (h.lt_of_thread hstep.ran.live.1)
    (h.during.run (SlotEngine.calm_loaded n _) hstep.ran) (fun p hp hthread => ?_)
    (fun hphase => ?_) (fun hne => ?_)
  · cases hstep with
    | @pull q _ _ hpoint hq =>
      cases hp
      exact h.running i q hq (Or.inr hpoint)
    | @read q _ _ _ _ hpoint hq =>
      cases hp
      exact h.running i q hq (Or.inr hpoint)
    | close hpoint => simp [hpoint] at hthread
  · cases hstep with
    | pull hpoint => exact h.closing i (by rw [hpoint]; rfl)
    | read hpoint => exact h.closing i (by rw [hpoint]; rfl)
    | close hpoint => simp [hpoint, phase] at hphase
  · cases hstep with
    | @pull p fuel r => cases Chain.isDone r.1 <;> simp
    | @read p fuel r => cases Chain.isDone r.1 <;> simp
    | close hpoint => exact Or.inr hpoint

/-- The phase behind a pull. -/
theorem phase_pulled (ops : Chain U) (k : Nat) :
    phase (some (if Chain.isDone ops then RunPoint.close else .test)) 0 k =
      Thread.phaseAfter ops := by
  unfold Thread.phaseAfter
  cases Chain.isDone ops <;> rfl

/-- A call of an operator is a step of the thread. -/
theorem Sound.thread_work (h : Sound n pipelines s) {i k : Nat} {a : Action} {slot : Slot U}
    {outs : List Output} (hpending : s.pending i = [])
    (hstep : Work (s.engine.slots i) (s.closing i) a slot k outs) : ∃ p, slot.pipeline = some p ∧
      Thread.Step (threads pipelines s i) a
        ⟨p.root, outs, phase slot.thread k p.root.length⟩ := by
  cases hstep with
  | @pull p fuel r hpoint hp hne hinput hr =>
    refine ⟨_, rfl, ?_⟩
    rw [threads_of_pipeline hp, hpending, hpoint, h.closing i (by rw [hpoint]; rfl), phase_pulled]
    exact .pull hne hinput hr
  | @read p fuel r ch v hpoint hp hinput hr =>
    refine ⟨_, rfl, ?_⟩
    rw [threads_of_pipeline hp, hpending, hpoint, h.closing i (by rw [hpoint]; rfl), phase_pulled]
    exact .read hinput hr
  | @close p fuel r hpoint hp hk hr =>
    refine ⟨_, rfl, ?_⟩
    rw [threads_of_pipeline hp, hpending, hpoint]
    exact .close hk hr

/-! ### The runs -/

theorem Sound.step (h : Sound n pipelines s) {a : ProgramAction} (hstep : Step s a s') :
    Sound n pipelines s' := by
  cases hstep with
  | executor he => exact h.executor (SlotEngine.executorStep_inv he)
  | control _ hcontrol => exact h.control hcontrol
  | call hpending _ => exact h.call hpending
  | work _ hwork _ => exact h.work hwork

/-- A step shows as a step of the job, or does not show. -/
theorem Sound.shows (h : Sound n pipelines s) {a : ProgramAction} (hstep : Step s a s') :
    Shows Job.Step (job pipelines s) (jobAct a) (job pipelines s') := by
  cases hstep with
  | executor he =>
    exact congrArg (Job.mk · s.channels) (h.threads_executor (SlotEngine.executorStep_inv he))
  | control hpending hcontrol =>
    exact congrArg (Job.mk · s.channels) (h.threads_control hpending hcontrol)
  | @call i o outs chs hpending heffect =>
    obtain ⟨p, hp⟩ := h.pipeline_of_pending (i := i) (by simp [hpending])
    have hthread : Thread.Step (threads pipelines s i) o.action
        ⟨p.root, outs, phase (s.engine.slots i).thread (s.closing i) p.root.length⟩ := by
      rw [threads_of_pipeline hp, hpending]
      exact .call _ _ _ _
    have hjob := @Job.Step.thread U (job pipelines s) i _ _ chs hthread heffect
    unfold job
    rw [threads_put hp]
    exact hjob
  | @work i a slot k outs chs hpending hwork heffect =>
    obtain ⟨p, hp, hthread⟩ := h.thread_work hpending hwork
    have hjob := @Job.Step.thread U (job pipelines s) i _ _ chs hthread heffect
    unfold job
    rw [threads_put hp]
    exact hjob

/-- A run of the program is a run of the job. -/
theorem steps_job {t : List ProgramAction} (h : Steps Step (start n pipelines) t s) :
    Sound n pipelines s ∧ Steps Job.Step (Job.start pipelines) (jobActs t) (job pipelines s) :=
  ⟨Steps.invariant (fun _ _ _ hp hstep => hp.step hstep) (sound_start n pipelines) h,
    Steps.simulate (fun _ _ _ hp hstep => hp.step hstep) (fun _ _ _ hp hstep => hp.shows hstep)
      (sound_start n pipelines) h⟩

end

end Program

end Xtream
