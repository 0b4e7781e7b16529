import Xtream.Engine.Calls
import Xtream.Lib.KahnNetwork

/-!
# Slots (`src/engine/slot.cpp`, `Pipeline::run` and `Pipeline::stop`)

A slot owns a pipeline and the thread that runs it. `runStep` is one atomic step of that thread:
the store of `running_` at the start of `Pipeline::run`, one test of the loop, one
`root_->execute`, the closes, the store at the end of `Slot::run`. (`setup`, `open` and `terminate`
do nothing in any operator.) A null `pipeline_` or `root_` that is dereferenced is no step:
`NullDeref` says that the thread stands before one.

`ControlledSlot` is a slot with the thread that calls its methods: `start` and `stop` take their
steps between those of the slot's thread. No code looks at the stop request of
`thread_.request_stop()`. `assign` destroys the pipeline that was there before: while the slot's
thread is live it is still inside this pipeline, and what it does then is undefined, so there is no
such step.

* `runStep_inv`: what a step of the slot's thread does.
-/

namespace Xtream

/-- A `Pipeline`: the operators from its root on, none for a null `root_`. `number` is the number of
the submission, which the code does not keep. -/
structure Pipeline (U : Type) where
  number : Nat := 0
  root : Chain U
  running : Bool := false

namespace Pipeline

variable {U : Type}

/-- `stop`. -/
def stop (p : Pipeline U) : Pipeline U := { p with running := false }

/-- What a move leaves behind. -/
def moved (p : Pipeline U) : Pipeline U := { p with root := [] }

end Pipeline

/-- Where the thread of a slot stands. -/
inductive RunPoint
  /-- Before `pipeline_->run()`. -/
  | call
  /-- Before the test of the loop. -/
  | test
  /-- Before `root_->execute`. -/
  | execute
  /-- Behind the loop. -/
  | close
  /-- Behind `pipeline_->run()`. -/
  | leave
  | finished
  deriving DecidableEq, Repr

/-- What the thread of a slot does. -/
inductive RunAction
  /-- `running_ = true` in `Pipeline::run`. -/
  | begin
  /-- The test of the loop, with what it reads. -/
  | test (running : Bool)
  | execute
  | close
  /-- `running_ = false` in `Slot::run`: this pipeline has been run. -/
  | leave (number : Nat)
  deriving DecidableEq, Repr

/-- A slot: `pipeline_`, `thread_` (none if it is not joinable) and `running_`. -/
structure Slot (U : Type) where
  pipeline : Option (Pipeline U) := none
  thread : Option RunPoint := none
  running : Bool := false

namespace Slot

variable {U : Type}

/-- One step of `Slot::run` and `Pipeline::run`. -/
def runStep (fuel : Nat) (read : Option (Event Record)) (s : Slot U) :
    Option (RunAction × Slot U) :=
  match s.thread, s.pipeline with
  | some .call, some p =>
    some (.begin, { s with pipeline := some { p with running := true }, thread := some .test })
  | some .test, some p =>
    some (.test p.running, { s with thread := some (if p.running then .execute else .close) })
  | some .execute, some p =>
    if p.root.isEmpty then none
    else
      (Chain.execute fuel read p.root Pipeline.dummy).map fun r =>
        (.execute, { s with
          pipeline := some { p with root := r.1 }
          thread := some (if Chain.isDone r.1 then .close else .test) })
  | some .close, some p =>
    (Chain.closeAll fuel p.root).map fun r =>
      (.close, { s with pipeline := some { p with root := r.1 }, thread := some .leave })
  | some .leave, some p =>
    some (.leave p.number, { s with running := false, thread := some .finished })
  | _, _ => none

/-- What a step does to the pipeline and to the thread. -/
inductive Moves (p : Pipeline U) : RunPoint → RunAction → Pipeline U → RunPoint → Prop
  | begin : Moves p .call .begin { p with running := true } .test
  | go : p.running = true → Moves p .test (.test true) p .execute
  | halt : p.running = false → Moves p .test (.test false) p .close
  | execute {root : Chain U} {point : RunPoint} : p.root ≠ [] → root.length = p.root.length →
      point = .test ∨ point = .close → Moves p .execute .execute { p with root } point
  | close {root : Chain U} : root.length = p.root.length →
      Moves p .close .close { p with root } .leave
  | leave : Moves p .leave (.leave p.number) p .finished

/-- A step of the slot's thread. -/
theorem runStep_inv {fuel : Nat} {read : Option (Event Record)} {s s' : Slot U} {a : RunAction}
    (h : s.runStep fuel read = some (a, s')) : ∃ point p point' p', s.thread = some point ∧
      s.pipeline = some p ∧ Moves p point a p' point' ∧
      s' = ⟨some p', some point', if point' = .finished then false else s.running⟩ := by
  unfold runStep at h
  split at h
  · rename_i p hthread hpipeline
    cases h
    exact ⟨_, p, _, _, hthread, hpipeline, .begin, rfl⟩
  · rename_i p hthread hpipeline
    cases h
    cases hrunning : p.running with
    | true => exact ⟨_, p, _, _, hthread, hpipeline, .go hrunning, by simp [hpipeline]⟩
    | false => exact ⟨_, p, _, _, hthread, hpipeline, .halt hrunning, by simp [hpipeline]⟩
  · rename_i p hthread hpipeline
    split at h
    · cases h
    · rename_i hroot
      obtain ⟨r, hr, h⟩ := Option.map_eq_some_iff.mp h
      cases h
      refine ⟨_, p, if Chain.isDone r.1 then .close else .test, _, hthread, hpipeline,
        .execute (by simpa using hroot) (Chain.execute_length hr) ?_, ?_⟩
      · cases Chain.isDone r.1 <;> simp
      · cases Chain.isDone r.1 <;> simp
  · rename_i p hthread hpipeline
    obtain ⟨r, hr, h⟩ := Option.map_eq_some_iff.mp h
    cases h
    exact ⟨_, p, _, _, hthread, hpipeline, .close (Chain.closeFrom_length hr), rfl⟩
  · rename_i p hthread hpipeline
    cases h
    exact ⟨_, p, _, _, hthread, hpipeline, .leave, by simp [hpipeline]⟩
  · cases h

/-- The next step of the thread dereferences a null `pipeline_` or `root_`. -/
def NullDeref (s : Slot U) : Prop :=
  (s.thread = some .call ∧ s.pipeline = none) ∨
    (s.thread = some .execute ∧ ∃ p, s.pipeline = some p ∧ p.root = [])

/-- There is a pipeline, and it has a root. -/
def Rooted (s : Slot U) : Prop := ∃ p, s.pipeline = some p ∧ p.root ≠ []

/-- The thread has been started and has not come to its end. -/
def Live (s : Slot U) : Prop := s.thread ≠ none ∧ s.thread ≠ some .finished

instance (s : Slot U) : Decidable s.Live := inferInstanceAs (Decidable (_ ∧ _))

def assign (p : Pipeline U) (s : Slot U) : Slot U := { s with pipeline := some p }

/-- `running_ = true` in `start`. -/
def mark (s : Slot U) : Slot U := { s with running := true }

/-- `thread_ = std::jthread(...)` in `start`. -/
def spawn (s : Slot U) : Slot U := { s with thread := some .call }

/-- `pipeline_->stop()` in `stop`. -/
def stopPipeline (s : Slot U) : Slot U := { s with pipeline := s.pipeline.map Pipeline.stop }

/-- `thread_.join()` in `stop`. -/
def join (s : Slot U) : Slot U := { s with thread := none }

/-- `running_ = false` in `stop`. -/
def clear (s : Slot U) : Slot U := { s with running := false }

end Slot

/-! ## A slot and the thread that calls its methods -/

/-- Where the calling thread stands. -/
inductive Control
  | idle
  /-- In `start`, before the new thread. -/
  | starting
  /-- In `stop`, before `thread_.join()`. -/
  | joining
  /-- In `stop`, before `running_ = false`. -/
  | clearing
  deriving DecidableEq, Repr

structure ControlledSlot (U : Type) where
  slot : Slot U := {}
  control : Control := .idle

inductive SlotAction (U : Type)
  | assign (p : Pipeline U)
  /-- The test of `start`, and the store behind it. -/
  | start
  | spawn
  /-- `pipeline_->stop()`: the first step of `stop`. -/
  | stop
  | join
  | clear
  /-- A step of the slot's thread. -/
  | run (a : RunAction)

namespace ControlledSlot

variable {U : Type}

inductive Step : ControlledSlot U → SlotAction U → ControlledSlot U → Prop
  | assign {s : Slot U} (p : Pipeline U) : ¬ s.Live →
      Step ⟨s, .idle⟩ (.assign p) ⟨s.assign p, .idle⟩
  | running {s : Slot U} : s.running = true → Step ⟨s, .idle⟩ .start ⟨s, .idle⟩
  | start {s : Slot U} : s.running = false → Step ⟨s, .idle⟩ .start ⟨s.mark, .starting⟩
  -- the new thread starts before the assignment joins the old one, which has come to its end here
  -- (`not_live_of_starting`)
  | spawn {s : Slot U} : ¬ s.Live → Step ⟨s, .starting⟩ .spawn ⟨s.spawn, .idle⟩
  | stop {s : Slot U} : Step ⟨s, .idle⟩ .stop ⟨s.stopPipeline, .joining⟩
  | join {s : Slot U} : s.thread = some .finished → Step ⟨s, .joining⟩ .join ⟨s.join, .clearing⟩
  | clear {s : Slot U} : Step ⟨s, .clearing⟩ .clear ⟨s.clear, .idle⟩
  | run {s s' : Slot U} {c : Control} {a : RunAction} {fuel : Nat}
      {read : Option (Event Record)} :
      s.runStep fuel read = some (a, s') → Step ⟨s, c⟩ (.run a) ⟨s', c⟩

/-- `thread_.join()` on a thread that is not joinable: it throws. -/
def Throws (s : ControlledSlot U) : Prop := s.control = .joining ∧ s.slot.thread = none

end ControlledSlot

end Xtream
