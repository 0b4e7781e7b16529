import Xtream.Engine.Slot
import Mathlib.Logic.Function.Basic

/-!
# The slot engine (`src/engine/slot_engine.cpp`, `src/engine/slot_manager.cpp`)

`execute` runs on a thread of its own: it moves the first pipelines into the slots, starts all the
slots, and then asks one after the other whether they run. `submit` and `cancel` are called by
another thread, one call after the other, and the next `execute` only when the last one has
returned. The steps of these two threads and of the slots' threads interleave. `pipelines_` is a
plain vector: there is no `submit` while `execute` goes over it.

A `cancel` that races with `start_all` may return while a slot is still to be started. The next
`execute` then finds a live thread in this slot: `assign` would destroy the pipeline that it runs,
and `start` makes the new thread before it joins the old one, whereas in the model the thread goes
on with the new pipeline, and the new thread waits for the old one. Where each `cancel` finds the
slots started this does not happen (`Resting.step`).

* `executorStep_inv`, `cancellerStep_inv`: what a step of `execute` and of `cancel` does.
-/

namespace Xtream

/-- Where `execute` stands. -/
inductive ExecutePoint
  | idle
  /-- In the loop over `pipelines_`, before this slot. -/
  | assign (i : Nat)
  /-- In `start_all`, before `start` of this slot. -/
  | start (i : Nat)
  /-- In `start` of this slot, before the new thread. -/
  | spawn (i : Nat)
  /-- Before the test of `running_`. -/
  | test
  /-- Before `is_running` of this slot. -/
  | poll (i : Nat)
  deriving DecidableEq, Repr

/-- Where `cancel` stands, in `stop` of a slot. -/
inductive CancelPoint
  | idle
  | stop (i : Nat)
  /-- Before `thread_.join()`. -/
  | join (i : Nat)
  /-- Before `running_ = false`. -/
  | clear (i : Nat)
  deriving DecidableEq, Repr

/-- A slot engine, with the two calls in progress. -/
structure SlotEngine (U : Type) where
  slotCount : Nat
  slots : Nat → Slot U := fun _ => {}
  pipelines : List (Pipeline U) := []
  running : Bool := false
  execute : ExecutePoint := .idle
  cancel : CancelPoint := .idle

inductive EngineAction (U : Type)
  | submit (p : Pipeline U)
  | execute
  | cancel
  /-- A step of `execute`. -/
  | executor
  /-- A step of `cancel`. -/
  | canceller
  /-- A step of the thread of a slot. -/
  | run (i : Nat) (a : RunAction)

namespace SlotEngine

variable {U : Type}

def setSlot (s : SlotEngine U) (i : Nat) (slot : Slot U) : SlotEngine U :=
  { s with slots := Function.update s.slots i slot }

section

variable (s : SlotEngine U) (i : Nat) (slot : Slot U)

@[simp] theorem setSlot_slots_self : (s.setSlot i slot).slots i = slot := by
  simp [setSlot]

@[simp] theorem setSlot_slots_of_ne {j : Nat} (h : j ≠ i) :
    (s.setSlot i slot).slots j = s.slots j := by
  simp [setSlot, h]

/-- What is the same in the new slot is the same in all slots. -/
theorem setSlot_frame {β : Type*} (f : Slot U → β) (h : f slot = f (s.slots i)) (j : Nat) :
    f ((s.setSlot i slot).slots j) = f (s.slots j) := by
  by_cases hj : j = i
  · subst hj
    rw [setSlot_slots_self, h]
  · rw [setSlot_slots_of_ne _ _ _ hj]

@[simp] theorem setSlot_slotCount : (s.setSlot i slot).slotCount = s.slotCount := rfl
@[simp] theorem setSlot_pipelines : (s.setSlot i slot).pipelines = s.pipelines := rfl
@[simp] theorem setSlot_running : (s.setSlot i slot).running = s.running := rfl
@[simp] theorem setSlot_execute : (s.setSlot i slot).execute = s.execute := rfl
@[simp] theorem setSlot_cancel : (s.setSlot i slot).cancel = s.cancel := rfl

end

/-- `submit`. -/
def submit (p : Pipeline U) (s : SlotEngine U) : SlotEngine U :=
  { s with pipelines := s.pipelines ++ [{ p with number := s.pipelines.length }] }

/-- The next step of `execute`. -/
def executorStep (s : SlotEngine U) : Option (SlotEngine U) :=
  match s.execute with
  | .idle => none
  | .assign i =>
    match s.pipelines[i]? with
    | none => some { s with execute := .start 0 }
    | some p =>
      if i < s.slotCount then
        some { s.setSlot i ((s.slots i).assign p) with
          pipelines := s.pipelines.set i p.moved
          execute := .assign (i + 1) }
      else some { s with execute := .start 0 }
  | .start i =>
    if i < s.slotCount then
      if (s.slots i).running then some { s with execute := .start (i + 1) }
      else some { s.setSlot i (s.slots i).mark with execute := .spawn i }
    else some { s with execute := .test }
  | .spawn i =>
    if (s.slots i).Live then none
    else some { s.setSlot i (s.slots i).spawn with execute := .start (i + 1) }
  | .test => some { s with execute := if s.running then .poll 0 else .idle }
  | .poll i =>
    if i < s.slotCount then
      if (s.slots i).running then some { s with execute := .test }
      else some { s with execute := .poll (i + 1) }
    else some { s with execute := .idle }

/-- The next step of `cancel`. -/
def cancellerStep (s : SlotEngine U) : Option (SlotEngine U) :=
  match s.cancel with
  | .idle => none
  | .stop i =>
    if i < s.slotCount then some { s.setSlot i (s.slots i).stopPipeline with cancel := .join i }
    else some { s with cancel := .idle }
  | .join i =>
    if (s.slots i).thread = some .finished then
      some { s.setSlot i (s.slots i).join with cancel := .clear i }
    else none
  | .clear i => some { s.setSlot i (s.slots i).clear with cancel := .stop (i + 1) }

inductive Step : SlotEngine U → EngineAction U → SlotEngine U → Prop
  | submit {s : SlotEngine U} (p : Pipeline U) : s.cancel = .idle →
      (∀ i, s.execute ≠ .assign i) → Step s (.submit p) (s.submit p)
  | execute {s : SlotEngine U} : s.cancel = .idle → s.execute = .idle →
      Step s .execute { s with running := true, execute := .assign 0 }
  | cancel {s : SlotEngine U} : s.cancel = .idle →
      Step s .cancel { s with running := false, cancel := .stop 0 }
  | executor {s s' : SlotEngine U} : s.executorStep = some s' → Step s .executor s'
  | canceller {s s' : SlotEngine U} : s.cancellerStep = some s' → Step s .canceller s'
  | run {s : SlotEngine U} {i fuel : Nat} {read : Option (Event Record)} {a : RunAction}
      {slot : Slot U} : (s.slots i).runStep fuel read = some (a, slot) →
      Step s (.run i a) (s.setSlot i slot)

/-- `thread_.join()` on a thread that is not joinable: it throws. -/
def Throws (s : SlotEngine U) : Prop := ∃ i, s.cancel = .join i ∧ (s.slots i).thread = none

/-! ## The steps of `execute` and `cancel` -/

/-- A step of `execute`. -/
inductive Executes (s : SlotEngine U) : SlotEngine U → Prop
  | assign {i : Nat} {p : Pipeline U} : s.execute = .assign i → s.pipelines[i]? = some p →
      i < s.slotCount → Executes s { s.setSlot i ((s.slots i).assign p) with
        pipelines := s.pipelines.set i p.moved
        execute := .assign (i + 1) }
  | assigned {i : Nat} : s.execute = .assign i → s.pipelines.length ≤ i ∨ s.slotCount ≤ i →
      Executes s { s with execute := .start 0 }
  | skip {i : Nat} : s.execute = .start i → i < s.slotCount → (s.slots i).running = true →
      Executes s { s with execute := .start (i + 1) }
  | mark {i : Nat} : s.execute = .start i → i < s.slotCount → (s.slots i).running = false →
      Executes s { s.setSlot i (s.slots i).mark with execute := .spawn i }
  | started {i : Nat} : s.execute = .start i → s.slotCount ≤ i →
      Executes s { s with execute := .test }
  | spawn {i : Nat} : s.execute = .spawn i → ¬ (s.slots i).Live →
      Executes s { s.setSlot i (s.slots i).spawn with execute := .start (i + 1) }
  | test : s.execute = .test → Executes s { s with execute := if s.running then .poll 0 else .idle }
  | busy {i : Nat} : s.execute = .poll i → i < s.slotCount → (s.slots i).running = true →
      Executes s { s with execute := .test }
  | next {i : Nat} : s.execute = .poll i → i < s.slotCount → (s.slots i).running = false →
      Executes s { s with execute := .poll (i + 1) }
  | done {i : Nat} : s.execute = .poll i → s.slotCount ≤ i → Executes s { s with execute := .idle }

theorem executorStep_inv {s s' : SlotEngine U} (h : s.executorStep = some s') :
    Executes s s' := by
  unfold executorStep at h
  split at h
  · cases h
  · rename_i i hi
    split at h
    · rename_i hp
      cases h
      exact .assigned hi (Or.inl (List.getElem?_eq_none_iff.mp hp))
    · rename_i p hp
      split at h
      · rename_i hlt
        cases h
        exact .assign hi hp hlt
      · rename_i hlt
        cases h
        exact .assigned hi (Or.inr (Nat.not_lt.mp hlt))
  · rename_i i hi
    split at h
    · rename_i hlt
      split at h
      · rename_i hrunning
        cases h
        exact .skip hi hlt hrunning
      · rename_i hrunning
        cases h
        exact .mark hi hlt (by simpa using hrunning)
    · rename_i hlt
      cases h
      exact .started hi (Nat.not_lt.mp hlt)
  · rename_i i hi
    split at h
    · cases h
    · rename_i hlive
      cases h
      exact .spawn hi hlive
  · rename_i hi
    cases h
    exact .test hi
  · rename_i i hi
    split at h
    · rename_i hlt
      split at h
      · rename_i hrunning
        cases h
        exact .busy hi hlt hrunning
      · rename_i hrunning
        cases h
        exact .next hi hlt (by simpa using hrunning)
    · rename_i hlt
      cases h
      exact .done hi (Nat.not_lt.mp hlt)

/-- A step of `cancel`. -/
inductive Cancels (s : SlotEngine U) : SlotEngine U → Prop
  | stop {i : Nat} : s.cancel = .stop i → i < s.slotCount →
      Cancels s { s.setSlot i (s.slots i).stopPipeline with cancel := .join i }
  | stopped {i : Nat} : s.cancel = .stop i → s.slotCount ≤ i → Cancels s { s with cancel := .idle }
  | join {i : Nat} : s.cancel = .join i → (s.slots i).thread = some .finished →
      Cancels s { s.setSlot i (s.slots i).join with cancel := .clear i }
  | clear {i : Nat} : s.cancel = .clear i →
      Cancels s { s.setSlot i (s.slots i).clear with cancel := .stop (i + 1) }

theorem Cancels.ne_idle {s s' : SlotEngine U} (h : Cancels s s') : s.cancel ≠ .idle := by
  intro hidle
  cases h with
  | stop hpoint _ => cases hidle.symm.trans hpoint
  | stopped hpoint _ => cases hidle.symm.trans hpoint
  | join hpoint _ => cases hidle.symm.trans hpoint
  | clear hpoint => cases hidle.symm.trans hpoint

theorem cancellerStep_inv {s s' : SlotEngine U} (h : s.cancellerStep = some s') :
    Cancels s s' := by
  unfold cancellerStep at h
  split at h
  · cases h
  · rename_i i hi
    split at h
    · rename_i hlt
      cases h
      exact .stop hi hlt
    · rename_i hlt
      cases h
      exact .stopped hi (Nat.not_lt.mp hlt)
  · rename_i i hi
    split at h
    · rename_i hthread
      cases h
      exact .join hi hthread
    · cases h
  · rename_i i hi
    cases h
    exact .clear hi

end SlotEngine

end Xtream
