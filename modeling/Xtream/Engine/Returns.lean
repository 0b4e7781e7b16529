import Xtream.Engine.Program
import Mathlib.Algebra.BigOperators.Group.Finset.Basic

/-!
# When `execute` returns

* `execute_returns`: what the sink has received, by the number of slots;
* `execute_ends_iff`: with a slot for each pipeline `execute` can always come to its end iff the
  pipelines do, one after the other.
-/

namespace Xtream

open KahnNetwork

namespace Program

variable {U : Type} {n : Nat} {pipelines : List (Chain U)} {s s' : Program U}
  {t : List ProgramAction}

/-! ## The slots when `execute` has returned -/

/-- A slot without a pipeline has none in the list of the submitted ones. -/
theorem loaded_supply_eq_none {i : Nat} (h : pipelines.length ≤ i) :
    (SlotEngine.loaded n (submissions pipelines)).supply i = none := by
  rw [SlotEngine.supply_loaded, submissions, List.getElem?_map, List.getElem?_eq_none h]
  rfl

theorem Sound.lt_of_pipeline (h : Sound n pipelines s) {i : Nat} (hi : i < n)
    (hspawned : s.engine.execute.Spawned i) (hp : (s.engine.slots i).pipeline ≠ none) :
    i < pipelines.length := by
  by_contra hle
  have htag := h.during.tag i hi hspawned.assigned
  rw [loaded_supply_eq_none (Nat.not_lt.mp hle), Slot.tag, Option.map_eq_none_iff] at htag
  exact hp htag

/-- The thread of a slot has come to its end. -/
theorem Sound.finished_of_idle (h : Sound n pipelines s) (hidle : s.engine.execute = .idle)
    {i : Nat} (hi : i < n) : (s.engine.slots i).thread = some .finished :=
  h.during.polled i hi (by rw [hidle]; trivial)

theorem Sound.le_of_idle (h : Sound n pipelines s) (hidle : s.engine.execute = .idle) :
    n ≤ pipelines.length := by
  by_contra hlt
  have hi := Nat.not_le.mp hlt
  have hspawned : s.engine.execute.Spawned pipelines.length := by
    rw [hidle]
    trivial
  have hfinished := h.finished_of_idle hidle hi
  have hp := (h.during.spawned _ hi hspawned).2.2 (by simp [hfinished])
  exact Nat.lt_irrefl _ (h.lt_of_pipeline hi hspawned hp)

/-- A slot whose thread has come to its end shows a thread that has finished. -/
theorem Sound.thread_finished (h : Sound n pipelines s) {i : Nat}
    (hthread : (s.engine.slots i).thread = some .finished) : (threads pipelines s i).Finished := by
  have hi := h.lt_of_thread (i := i) (by simp [hthread])
  have hspawned : s.engine.execute.Spawned i := by
    by_contra hnot
    have hnone := (h.during.waiting i hi hnot).1
    rw [hthread] at hnone
    cases hnone
  obtain ⟨p, hp⟩ := Option.ne_none_iff_exists'.mp
    ((h.during.spawned i hi hspawned).2.2 (by simp [hthread]))
  have hpending : s.pending i = [] := by
    by_contra hne
    simpa [hthread] using h.pending i hne
  rw [threads_of_pipeline hp]
  exact ⟨hpending, by rw [hthread]; rfl⟩

theorem Sound.job_finished (h : Sound n pipelines s) (hlen : n = pipelines.length)
    (hall : ∀ i < n, (s.engine.slots i).thread = some .finished) :
    (job pipelines s).Finished := by
  intro i
  by_cases hi : i < n
  · exact h.thread_finished (hall i hi)
  · show (threads pipelines s i).Finished
    have hnone := h.outside i (Nat.not_lt.mp hi)
    have hmissing : pipelines[i]? = none := List.getElem?_eq_none (hlen ▸ Nat.not_lt.mp hi)
    unfold threads
    rw [hnone]
    simp only [Job.start, hmissing]
    exact ⟨rfl, rfl⟩

/-- A step of a thread is the step of a slot's thread. -/
theorem Sound.lt_of_act (h : Sound n pipelines s) {a : ProgramAction} (hstep : Step s a s') {i : Nat}
    {b : Action} (ha : a = .act i b) : i < n := by
  cases hstep with
  | executor => cases ha
  | control => cases ha
  | call hpending _ =>
    cases ha
    exact h.lt_of_pending (by simp [hpending])
  | work _ hwork _ =>
    cases ha
    exact h.lt_of_thread hwork.ran.live.1

theorem lt_of_mem_jobActs (h : Steps Step (start n pipelines) t s) {i : Nat} {b : Action}
    (hm : (i, b) ∈ jobActs t) : i < n := by
  have hacts := Steps.inv (I := Sound n pipelines) (Q := fun a => ∀ i b, a = .act i b → i < n)
    (fun _ _ _ hp hstep => ⟨hp.step hstep, fun _ _ ha => hp.lt_of_act hstep ha⟩)
    (sound_start n pipelines) h
  obtain ⟨a, ha, hb⟩ := List.mem_filterMap.mp hm
  cases a with
  | act j c =>
    cases hb
    exact hacts.2 _ ha _ _ rfl
  | _ => cases hb

/-- The sink has received nothing when its pipeline has no slot. -/
theorem sinks_eq_nil (hpieces : Job.Pieces pipelines) (h : Steps Step (start n pipelines) t s)
    (hlt : n < pipelines.length) : sinks (calls (jobActs t)) = [] := by
  have hnil : localActs (pipelines.length - 1) (jobActs t) = [] := by
    rw [List.eq_nil_iff_forall_not_mem]
    intro b hb
    have := lt_of_mem_jobActs h (mem_localActs.mp hb)
    omega
  rw [hpieces.sinks_eq (steps_job h).2, hnil]
  rfl

/-! ## What is left of `execute` -/

/-- Behind `start_all`, `execute` polls or has returned. -/
theorem settled_iff {e : SlotEngine U} : e.Settled ↔
    e.execute = .test ∨ (∃ i, e.execute = .poll i) ∨ e.execute = .idle := by
  unfold SlotEngine.Settled
  cases e.execute with
  | assign i => simp [ExecutePoint.Spawned]
  | start i => simpa [ExecutePoint.Spawned] using ⟨i, Nat.le_refl i⟩
  | spawn i => simpa [ExecutePoint.Spawned] using ⟨i, Nat.le_refl i⟩
  | _ => simp [ExecutePoint.Spawned]

/-- How many steps of `execute` are left at most before it polls. -/
def toPoll (n : Nat) : ExecutePoint → Nat
  | .assign i => 2 * n + 2 + (n - i)
  | .start i => 2 * (n - i) + 1
  | .spawn i => 2 * (n - i)
  | _ => 0

/-- `execute` does not wait before it polls. -/
theorem Sound.exists_toPoll (h : Sound n pipelines s) (hsettled : ¬ s.engine.Settled) :
    ∃ e, s.engine.executorStep = some e ∧
      toPoll n e.execute < toPoll n s.engine.execute := by
  have hcount : s.engine.slotCount = n := h.during.slotCount
  have hpoint : (∃ i, s.engine.execute = .assign i) ∨ (∃ i, s.engine.execute = .start i) ∨
      ∃ i, s.engine.execute = .spawn i := by
    rw [settled_iff] at hsettled
    cases hexecute : s.engine.execute with
    | assign i => exact Or.inl ⟨i, rfl⟩
    | start i => exact Or.inr (Or.inl ⟨i, rfl⟩)
    | spawn i => exact Or.inr (Or.inr ⟨i, rfl⟩)
    | _ => simp [hexecute] at hsettled
  unfold SlotEngine.executorStep
  rcases hpoint with ⟨i, hi⟩ | ⟨i, hi⟩ | ⟨i, hi⟩
  · rw [hi]
    dsimp only
    split
    · exact ⟨_, rfl, by simp [toPoll]; omega⟩
    · split
      · exact ⟨_, rfl, by simp [toPoll]; omega⟩
      · exact ⟨_, rfl, by simp [toPoll]; omega⟩
  · rw [hi]
    dsimp only
    split
    · split
      · exact ⟨_, rfl, by simp [toPoll]; omega⟩
      · exact ⟨_, rfl, by simp [toPoll]⟩
    · exact ⟨_, rfl, by simp [toPoll]⟩
  · have hlt := h.during.point i hi
    have hnone := (h.during.waiting i hlt (by simp [hi, ExecutePoint.Spawned])).1
    have hidle : ¬ (s.engine.slots i).Live := fun hlive => hlive.1 hnone
    have hlt' : i < n := hlt
    rw [hi]
    dsimp only
    rw [if_neg hidle]
    exact ⟨_, rfl, by simp [toPoll]; omega⟩

/-- How many steps of `execute` are left when no slot runs. -/
def toReturn (n : Nat) : ExecutePoint → Nat
  | .test => n + 2
  | .poll i => n - i + 1
  | _ => 0

/-- `execute` returns when no slot runs. -/
theorem Sound.exists_toReturn (h : Sound n pipelines s) (hsettled : s.engine.Settled)
    (hall : ∀ i < n, (s.engine.slots i).thread = some .finished)
    (hidle : s.engine.execute ≠ .idle) : ∃ e, s.engine.executorStep = some e ∧
      e.Settled ∧ e.slots = s.engine.slots ∧
      toReturn n e.execute < toReturn n s.engine.execute := by
  have hcount : s.engine.slotCount = n := h.during.slotCount
  have hrunning : s.engine.running = true := h.during.running
  have hstopped : ∀ i < n, (s.engine.slots i).running = false := by
    intro i hi
    have hspawned := (h.during.spawned i hi (hsettled i)).2.1
    rw [Bool.eq_false_iff]
    exact fun hr => hspawned.mp hr (hall i hi)
  unfold SlotEngine.executorStep
  rcases settled_iff.mp hsettled with hi | ⟨i, hi⟩ | hi
  · rw [hi]
    dsimp only
    rw [if_pos hrunning]
    exact ⟨_, rfl, fun _ => trivial, rfl, by simp [toReturn]⟩
  · rw [hi]
    dsimp only
    split
    · rename_i hlt
      rw [if_neg (by simp [hstopped i (hcount ▸ hlt)])]
      exact ⟨_, rfl, fun _ => trivial, rfl, by simp [toReturn]; omega⟩
    · exact ⟨_, rfl, fun _ => trivial, rfl, by simp [toReturn]⟩
  · exact absurd hi hidle

/-! ## The steps of the slots -/

/-- A step of the thread of a slot. -/
def isSlot : ProgramAction → Bool
  | .executor => false
  | _ => true

/-- How many steps the threads of the slots take. -/
def slotSteps (t : List ProgramAction) : Nat := t.countP isSlot

theorem slotSteps_append (t t' : List ProgramAction) :
    slotSteps (t ++ t') = slotSteps t + slotSteps t' := List.countP_append

/-- What a thread pays for its steps that call no operator. -/
def need : Option RunPoint → Nat
  | none => 4
  | some .call => 4
  | some .test => 3
  | some .execute => 2
  | some .close => 2
  | some .leave => 1
  | some .finished => 0

def needs (n : Nat) (s : Program U) : Nat :=
  ∑ i ∈ Finset.range n, need (s.engine.slots i).thread

/-- What a step of the job brings in. -/
def gain (a : ProgramAction) : Nat := if (jobAct a).isSome then 2 else 0

theorem sum_gain (t : List ProgramAction) : (t.map gain).sum = 2 * (jobActs t).length := by
  induction t with
  | nil => rfl
  | cons a t ih =>
    cases a with
    | act i b =>
      rw [List.map_cons, List.sum_cons, ih]
      simp [jobActs, jobAct, gain]
      omega
    | _ =>
      rw [List.map_cons, List.sum_cons, ih, jobActs, jobActs, List.filterMap_cons_none rfl]
      exact Nat.zero_add _

theorem sum_slot (t : List ProgramAction) :
    (t.map fun a => if isSlot a then 1 else 0).sum = slotSteps t := by
  induction t with
  | nil => rfl
  | cons a t ih =>
    rw [List.map_cons, List.sum_cons, ih, slotSteps, slotSteps, List.countP_cons, Nat.add_comm]

/-- One thread moves. -/
theorem needs_put {i k : Nat} {slot : Slot U} {outs : List Output} {chs : Channels} (hi : i < n) :
    needs n (s.put i slot k outs chs) + need (s.engine.slots i).thread =
      needs n s + need slot.thread := by
  have hmem : i ∈ Finset.range n := Finset.mem_range.mpr hi
  have hother : ∀ j ∈ (Finset.range n).erase i,
      need ((s.put i slot k outs chs).engine.slots j).thread = need (s.engine.slots j).thread := by
    intro j hj
    simp [put, Finset.ne_of_mem_erase hj]
  have hself : need ((s.put i slot k outs chs).engine.slots i).thread = need slot.thread := by
    simp [put]
  unfold needs
  rw [← Finset.add_sum_erase _ _ hmem, ← Finset.add_sum_erase _ _ hmem, Finset.sum_congr rfl hother,
    hself]
  omega

/-- Each step of a slot pays for itself, apart from what the steps of the job bring in. -/
theorem Sound.pays (h : Sound n pipelines s) {a : ProgramAction} (hstep : Step s a s') :
    (if isSlot a then 1 else 0) + needs n s' ≤ needs n s + gain a := by
  cases hstep with
  | @executor e he =>
    have hserved := h.served (SlotEngine.executorStep_inv he)
    have hle : needs n { s with engine := e } ≤ needs n s := by
      refine Finset.sum_le_sum fun i _ => ?_
      cases hserved i with
      | same hthread _ => exact (congrArg need hthread).le
      | assigned _ hnone hnone' => exact (congrArg need (hnone'.trans hnone.symm)).le
      | spawned hnone hcall => rw [hnone, hcall]; rfl
    simpa [isSlot] using Nat.le_add_right_of_le hle
  | @control i slot hpending hcontrol =>
    have hput := @needs_put U n s i (s.closing i) slot [] s.channels
      (h.lt_of_thread hcontrol.ran.live.1)
    have hneed : 1 + need slot.thread ≤ need (s.engine.slots i).thread := by
      cases hcontrol with
      | begin hpoint _ => rw [hpoint]; rfl
      | @test p hpoint _ => cases hr : p.running <;> simp [hpoint, need]
      | closed hpoint _ _ => rw [hpoint]; rfl
      | leave hpoint _ => rw [hpoint]; exact Nat.le_refl 1
    simp only [isSlot, gain, jobAct]
    simp
    omega
  | @call i o outs chs hpending _ =>
    have hput := @needs_put U n s i (s.closing i) (s.engine.slots i) outs chs
      (h.lt_of_pending (by simp [hpending]))
    simp only [isSlot, gain, jobAct]
    simp
    omega
  | @work i b slot k outs chs hpending hwork _ =>
    have hput := @needs_put U n s i k slot outs chs (h.lt_of_thread hwork.ran.live.1)
    have hneed : need slot.thread ≤ need (s.engine.slots i).thread + 1 := by
      cases hwork with
      | @pull p fuel r hpoint => cases hd : Chain.isDone r.1 <;> simp [hpoint, need]
      | @read p fuel r ch v hpoint => cases hd : Chain.isDone r.1 <;> simp [hpoint, need]
      | close hpoint => simp
    simp only [isSlot, gain, jobAct]
    simp
    omega

/-- The steps of the slots are bounded by those of the job. -/
theorem slotSteps_le (h : Steps Step (start n pipelines) t s) :
    slotSteps t ≤ 4 * n + 2 * (jobActs t).length := by
  have hcost := @Steps.cost (Program U) ProgramAction Step (Sound n pipelines) (needs n)
    (fun a => if isSlot a then 1 else 0) gain (fun _ _ _ hp hstep => hp.step hstep)
    (fun _ _ _ hp hstep => hp.pays hstep) _ _ _ (sound_start n pipelines) h
  have hstart : needs n (start n pipelines) = 4 * n := by
    simp [needs, start, SlotEngine.loaded, need, Nat.mul_comm]
  rw [sum_slot, sum_gain, hstart] at hcost
  omega

/-! ## The threads come to their end -/

/-- With a pipeline for each slot, a slot whose thread has been made has one. -/
theorem Sound.exists_pipeline (h : Sound n pipelines s) (hlen : n ≤ pipelines.length) {i : Nat}
    (hi : i < n) (hspawned : s.engine.execute.Spawned i) :
    ∃ p, (s.engine.slots i).pipeline = some p := by
  have htag := h.during.tag i hi hspawned.assigned
  have hi' : i < pipelines.length := Nat.lt_of_lt_of_le hi hlen
  rw [SlotEngine.supply_loaded, submissions, List.getElem?_map, List.getElem?_eq_getElem hi'] at htag
  obtain ⟨p, hp, -⟩ := Option.map_eq_some_iff.mp htag
  exact ⟨p, hp⟩

/-- A thread that runs its loop can go on, when it can pull. -/
theorem exists_step_of_pulling {i : Nat} {p : Pipeline U}
    (hp : (s.engine.slots i).pipeline = some p) (hthread : (s.engine.slots i).thread ≠ none)
    (hpending : s.pending i = []) {k m : Nat}
    (hphase : phase (s.engine.slots i).thread k m = .pulling)
    (hpull : (s.engine.slots i).thread = some .execute → ∃ a s', isSlot a ∧ Step s a s') :
    ∃ a s', isSlot a ∧ Step s a s' := by
  cases hpoint : (s.engine.slots i).thread with
  | none => exact absurd hpoint hthread
  | some point =>
    rw [hpoint] at hphase
    cases point with
    | call => exact ⟨_, _, rfl, .control hpending (.begin hpoint hp)⟩
    | test => exact ⟨_, _, rfl, .control hpending (.test hpoint hp)⟩
    | execute => exact hpull hpoint
    | _ => cases hphase

/-- With a slot for each pipeline, a thread of the job is the thread of a slot. -/
theorem Sound.lt_of_jobStep (h : Sound n pipelines s) (hlen : n = pipelines.length)
    {x : Nat × Action} {j : Job U} (hstep : Job.Step (job pipelines s) x j) : x.1 < n := by
  cases hstep with
  | @thread i a th chs hth hchs =>
    by_contra hi
    have hnone := h.outside i (Nat.not_lt.mp hi)
    have hmissing : pipelines[i]? = none := List.getElem?_eq_none (hlen ▸ Nat.not_lt.mp hi)
    simp only [job, threads, hnone, Job.start, hmissing] at hth
    exact Thread.Finished.no_step ⟨rfl, rfl⟩ _ _ hth

/-- The threads of the slots have finished, or one of them can take a step of the job. -/
def CanGoOn (n : Nat) (j : Job U) : Prop :=
  (∀ i < n, (j.threads i).Finished) ∨ ∃ x j', x.1 < n ∧ Job.Step j x j'

/-- Some thread can go on, when a thread of the job can, or when all threads of the job have
finished and a slot has not. -/
theorem Sound.exists_slotStep (h : Sound n pipelines s) (hlen : n ≤ pipelines.length)
    (hsettled : s.engine.Settled) (hjob : CanGoOn n (job pipelines s)) :
    (∀ i < n, (s.engine.slots i).thread = some .finished) ∨ ∃ a s', isSlot a ∧ Step s a s' := by
  rcases hjob with hfinished | ⟨⟨i, a⟩, j, hi, hstep⟩
  · by_cases hall : ∀ i < n, (s.engine.slots i).thread = some .finished
    · exact Or.inl hall
    · right
      simp only [not_forall] at hall
      obtain ⟨i, hi, hne⟩ := hall
      obtain ⟨p, hp⟩ := h.exists_pipeline hlen hi (hsettled i)
      have hthread := (h.during.spawned i hi (hsettled i)).1
      obtain ⟨hpending, hphase⟩ := hfinished i hi
      simp only [job, threads_of_pipeline hp] at hpending hphase
      cases hpoint : (s.engine.slots i).thread with
      | none => exact absurd hpoint hthread
      | some point =>
        rw [hpoint] at hphase
        cases point with
        | close =>
          have hclosing : s.closing i = p.root.length := Phase.closing.inj hphase
          exact ⟨_, _, rfl, .control hpending (.closed hpoint hp hclosing)⟩
        | leave => exact ⟨_, _, rfl, .control hpending (.leave hpoint hp)⟩
        | finished => exact absurd hpoint hne
        | _ => cases hphase
  · right
    cases hstep with
    | @thread i a th chs hth hchs =>
      obtain ⟨p, hp⟩ := h.exists_pipeline hlen hi (hsettled i)
      have hthread := (h.during.spawned i hi (hsettled i)).1
      simp only [job, threads_of_pipeline hp] at hth
      generalize hpending : s.pending i = outs at hth
      generalize hphase : phase (s.engine.slots i).thread (s.closing i) p.root.length = ph at hth
      cases hth with
      | call ops o rest phase => exact ⟨_, _, rfl, .call hpending hchs⟩
      | pull hne hinput hr =>
        exact exists_step_of_pulling hp hthread hpending hphase fun hpoint =>
          ⟨_, _, rfl, .work hpending (.pull hpoint hp hne hinput hr) hchs⟩
      | read hinput hr =>
        exact exists_step_of_pulling hp hthread hpending hphase fun hpoint =>
          ⟨_, _, rfl, .work hpending (.read hpoint hp hinput hr) hchs⟩
      | @close _ k fuel r hk hr =>
        -- behind the loop the thread has operators left to close
        cases hpoint : (s.engine.slots i).thread with
        | none => exact absurd hpoint hthread
        | some point =>
          rw [hpoint] at hphase
          cases point with
          | close =>
            obtain rfl : s.closing i = k := Phase.closing.inj hphase
            exact ⟨_, _, rfl, .work hpending (.close hpoint hp hk hr) hchs⟩
          | leave => exact absurd (Phase.closing.inj hphase) (Nat.ne_of_gt hk)
          | finished => exact absurd (Phase.closing.inj hphase) (Nat.ne_of_gt hk)
          | _ => cases hphase

/-- `execute` comes to its polls, whatever the slots do. -/
theorem Sound.settles (h : Sound n pipelines s) : ∃ t' s', Steps Step s t' s' ∧
    Sound n pipelines s' ∧ s'.engine.Settled ∧ slotSteps t' = 0 := by
  obtain ⟨t', s', -, hsteps, ⟨hsound, -⟩, hsettled⟩ :=
    @Steps.reaches (Program U) ProgramAction (fun p a q => Step p a q ∧ isSlot a = false)
      (fun k p => Sound n pipelines p ∧ toPoll n p.engine.execute = k) (fun p => p.engine.Settled)
      (fun k p hp => by
        by_cases hsettled : p.engine.Settled
        · exact Or.inl hsettled
        · obtain ⟨e, he, hlt⟩ := hp.1.exists_toPoll hsettled
          exact Or.inr ⟨_, _, _, .single ⟨.executor he, rfl⟩,
            ⟨hp.1.executor (SlotEngine.executorStep_inv he), rfl⟩, hp.2 ▸ hlt⟩) _ s ⟨h, rfl⟩
  have hslots := Steps.inv (I := fun _ => True) (Q := fun a => isSlot a = false)
    (fun _ _ _ _ hstep => ⟨trivial, hstep.2⟩) trivial hsteps
  refine ⟨t', s', hsteps.mono fun _ _ _ hstep => hstep.1, hsound, hsettled, ?_⟩
  exact List.countP_eq_zero.mpr fun a ha => by simp [hslots.2 a ha]

/-- `execute` returns when the threads of the slots have come to their end. -/
theorem Sound.returns (h : Sound n pipelines s) (hsettled : s.engine.Settled)
    (hall : ∀ i < n, (s.engine.slots i).thread = some .finished) :
    ∃ t' s', Steps Step s t' s' ∧ s'.engine.execute = .idle := by
  obtain ⟨t', s', -, hsteps, -, hidle⟩ := @Steps.reaches (Program U) ProgramAction Step
    (fun k p => Sound n pipelines p ∧ p.engine.Settled ∧
      (∀ i < n, (p.engine.slots i).thread = some .finished) ∧ toReturn n p.engine.execute = k)
    (fun p => p.engine.execute = .idle)
    (fun k p ⟨hp, hset, hfin, hk⟩ => by
      by_cases hidle : p.engine.execute = .idle
      · exact Or.inl hidle
      · obtain ⟨e, he, hset', hslots, hlt⟩ := hp.exists_toReturn hset hfin hidle
        exact Or.inr ⟨_, _, _, .single (.executor he),
          ⟨hp.executor (SlotEngine.executorStep_inv he), hset',
            fun i hi => by rw [hslots]; exact hfin i hi, rfl⟩, hk ▸ hlt⟩) _ s
    ⟨h, hsettled, hall, rfl⟩
  exact ⟨t', s', hsteps, hidle⟩

/-- `execute` can always come to its end, after a bounded number of steps of the slots, when the
steps of the job are bounded and the job does not get stuck. -/
theorem exists_return (hlen : n ≤ pipelines.length) {bound : Nat}
    (hjob : ∀ t s, Steps Step (start n pipelines) t s →
      (jobActs t).length ≤ bound ∧ CanGoOn n (job pipelines s))
    (h : Steps Step (start n pipelines) t s) : slotSteps t ≤ 4 * n + 2 * bound ∧
      ∃ t' s', Steps Step s t' s' ∧ s'.engine.execute = .idle := by
  have hbound : ∀ t s, Steps Step (start n pipelines) t s → slotSteps t ≤ 4 * n + 2 * bound := by
    intro t s ht
    have := slotSteps_le ht
    have := (hjob _ _ ht).1
    omega
  refine ⟨hbound t s h, ?_⟩
  -- by the number of steps that the slots have left
  obtain ⟨t', s', -, hsteps, -, t'', s'', hsteps', hidle⟩ :=
    @Steps.reaches (Program U) ProgramAction Step
      (fun k p => ∃ t, Steps Step (start n pipelines) t p ∧
        4 * n + 2 * bound - slotSteps t = k)
      (fun p => ∃ t' q, Steps Step p t' q ∧ q.engine.execute = .idle)
      (fun k p ⟨t, ht, hk⟩ => by
        obtain ⟨t₁, q, hq, hsound, hsettled, hzero⟩ := (steps_job ht).1.settles
        have htq := ht.append hq
        rcases hsound.exists_slotStep hlen hsettled (hjob _ _ htq).2 with
          hall | ⟨a, r, ha, hr⟩
        · obtain ⟨t₂, r, hr, hidle⟩ := hsound.returns hsettled hall
          exact Or.inl ⟨_, r, hq.append hr, hidle⟩
        · have htr := htq.append (.single hr)
          have hone : slotSteps [a] = 1 := by simp [slotSteps, ha]
          have hle := hbound _ _ htr
          rw [slotSteps_append, slotSteps_append, hzero, hone] at hle
          refine Or.inr ⟨_, r, _, hq.append (.single hr), ⟨_, htr, rfl⟩, ?_⟩
          rw [slotSteps_append, slotSteps_append, hzero, hone]
          omega) _ s ⟨t, h, rfl⟩
  exact ⟨_, s'', hsteps.append hsteps', hidle⟩

/-- `execute` ends when the pipelines come to their end one after the other. -/
theorem ends_of_inOrder (hpieces : Job.Pieces pipelines) {fuel : Nat} {outs : List Output}
    (hrun : ExecutionGraph.runInOrder fuel pipelines (fun _ => {}) = some outs) :
    ∃ bound, ∀ t s, Steps Step (start pipelines.length pipelines) t s →
      slotSteps t ≤ bound ∧ ∃ t' s', Steps Step s t' s' ∧ s'.engine.execute = .idle := by
  obtain ⟨bound, hbound⟩ := hpieces.ends hrun
  have hjob : ∀ t s, Steps Step (start pipelines.length pipelines) t s →
      (jobActs t).length ≤ bound ∧ CanGoOn pipelines.length (job pipelines s) := by
    intro t s ht
    obtain ⟨hsound, hsteps⟩ := steps_job ht
    obtain ⟨hle, -, hend⟩ := hbound _ _ hsteps
    refine ⟨hle, hend.imp (fun hfinished i _ => hfinished i) ?_⟩
    rintro ⟨x, j, hstep⟩
    exact ⟨x, j, hsound.lt_of_jobStep rfl hstep, hstep⟩
  exact ⟨_, fun t s ht => exists_return (Nat.le_refl _) hjob ht⟩

/-- When `execute` has returned, with a slot for each pipeline, every thread has finished. -/
theorem job_finished_of_idle (h : Steps Step (start pipelines.length pipelines) t s)
    (hidle : s.engine.execute = .idle) : (job pipelines s).Finished := by
  have hsound := (steps_job h).1
  exact hsound.job_finished rfl fun i hi => hsound.finished_of_idle hidle hi

/-- When two jobs make the same of their pipelines one after the other, and the program of one has
returned, the other one can return, and its sink receives the same. -/
theorem agree {pipelines' : List (Chain U)} (hpieces : Job.Pieces pipelines)
    (hpieces' : Job.Pieces pipelines') {m : Nat} (hsame : ∀ fuel, m ≤ fuel →
      (ExecutionGraph.runInOrder fuel pipelines (fun _ => {})).map sinks =
        (ExecutionGraph.runInOrder fuel pipelines' (fun _ => {})).map sinks)
    (h : Steps Step (start pipelines.length pipelines) t s) (hidle : s.engine.execute = .idle) :
    (∃ t' s', Steps Step (start pipelines'.length pipelines') t' s' ∧
        s'.engine.execute = .idle) ∧
      ∀ t' s', Steps Step (start pipelines'.length pipelines') t' s' →
        s'.engine.execute = .idle → sinks (calls (jobActs t')) = sinks (calls (jobActs t)) := by
  have hfinished := job_finished_of_idle h hidle
  obtain ⟨l, outs, hrun⟩ := hpieces.exists_inOrder (steps_job h).2 hfinished
  have hrunMax := hrun (max l m) (Nat.le_max_left l m)
  have hmapped := hsame (max l m) (Nat.le_max_right l m)
  rw [hrunMax, Option.map_some, eq_comm, Option.map_eq_some_iff] at hmapped
  obtain ⟨outs', hrun', hsinks⟩ := hmapped
  refine ⟨?_, fun t' s' ht' hidle' => ?_⟩
  · obtain ⟨_, hends⟩ := ends_of_inOrder hpieces' hrun'
    exact (hends [] _ (.nil _)).2
  · rw [(hpieces'.sink_agrees hrun' (steps_job ht').2).2 (job_finished_of_idle ht' hidle'), hsinks,
      (hpieces.sink_agrees hrunMax (steps_job h).2).2 hfinished]

end Program

/-- **When `execute` returns.** In every run, with any number of slots, the sink has received an
initial part of what it receives when the pipelines run one after the other. When `execute` has
returned there were no more slots than pipelines; the sink has received everything if there was a
slot for each pipeline, and nothing if there were fewer. -/
theorem execute_returns {U : Type} {g : DataflowGraph U} {source : SourceLogicalOperator U}
    {transforms : List (LogicalImpl U)} {sink : SinkLogicalOperator U}
    (hg : g.IsLinear source transforms sink) {keys : List OperatorId}
    (hkeys : keys.Perm g.inDegreeKeys) :
    ∃ k pipelines, (∀ fuel, k ≤ fuel → ExecutionGraph.build fuel keys g = some pipelines) ∧
      ∀ n t s, Steps Program.Step (Program.start n pipelines) t s →
        (∀ fuel outs, ExecutionGraph.runInOrder fuel pipelines (fun _ => {}) = some outs →
          sinks (calls (Program.jobActs t)) <+: sinks outs) ∧
        (s.engine.execute = .idle → n ≤ pipelines.length ∧
          (n = pipelines.length →
            (∃ fuel outs, ExecutionGraph.runInOrder fuel pipelines (fun _ => {}) = some outs) ∧
            ∀ fuel outs, ExecutionGraph.runInOrder fuel pipelines (fun _ => {}) = some outs →
              sinks (calls (Program.jobActs t)) = sinks outs) ∧
          (n < pipelines.length → sinks (calls (Program.jobActs t)) = [])) := by
  have hpieces := hg.pieces
  refine ⟨transforms.length + 2, _, fun fuel hfuel => hg.build_eq hkeys hfuel, fun n t s ht => ?_⟩
  obtain ⟨hsound, hjob⟩ := Program.steps_job ht
  refine ⟨fun fuel outs hrun => (hpieces.sink_agrees hrun hjob).1, fun hidle =>
    ⟨hsound.le_of_idle hidle, fun hlen => ?_, Program.sinks_eq_nil hpieces ht⟩⟩
  subst hlen
  have hfinished := Program.job_finished_of_idle ht hidle
  obtain ⟨m, outs, hrun⟩ := hpieces.exists_inOrder hjob hfinished
  exact ⟨⟨m, outs, hrun m (Nat.le_refl m)⟩, fun fuel outs hrun =>
    (hpieces.sink_agrees hrun hjob).2 hfinished⟩

/-- With two slots, this graph's sink has received the events 1 and 3 when `execute` returns. -/
theorem execute_returns_pairs : ∃ pipelines, ExecutionGraph.build 3 pairs.inDegreeKeys pairs =
    some pipelines ∧ ∀ t s, Steps Program.Step (Program.start 2 pipelines) t s →
      s.engine.execute = .idle →
        sinks (calls (Program.jobActs t)) = [eventAt 1, eventAt 3] := by
  obtain ⟨k, pipelines, hbuild, h⟩ :=
    execute_returns pairs_isLinear (List.Perm.refl pairs.inDegreeKeys)
  have hbuild' := hbuild (max k 3) (Nat.le_max_left k 3)
  rw [pairs_isLinear.build_eq (List.Perm.refl _) (Nat.le_max_right k 3)] at hbuild'
  refine ⟨pipelines, (pairs_isLinear.build_eq (List.Perm.refl _) (Nat.le_refl 3)).trans hbuild',
    fun t s ht hidle => ?_⟩
  cases hbuild'
  obtain ⟨-, hreceived⟩ := ((h 2 t s ht).2 hidle).2.1 rfl
  exact hreceived 5 [.write 0 (eventAt 1), .write 0 (eventAt 3), .closeChannel 0,
    .sink (eventAt 1), .sink (eventAt 3)] (by decide +kernel)

/-- **With a slot for each pipeline** the threads of the slots take a bounded number of steps, and
`execute` can come to its end from every state that is reached, whatever the threads have done so far,
iff the pipelines come to their end one after the other. -/
theorem execute_ends_iff {U : Type} {g : DataflowGraph U} {source : SourceLogicalOperator U}
    {transforms : List (LogicalImpl U)} {sink : SinkLogicalOperator U}
    (hg : g.IsLinear source transforms sink) {keys : List OperatorId}
    (hkeys : keys.Perm g.inDegreeKeys) :
    ∃ k pipelines, (∀ fuel, k ≤ fuel → ExecutionGraph.build fuel keys g = some pipelines) ∧
      ((∃ fuel outs, ExecutionGraph.runInOrder fuel pipelines (fun _ => {}) = some outs) ↔
        ∃ bound, ∀ t s, Steps Program.Step (Program.start pipelines.length pipelines) t s →
          Program.slotSteps t ≤ bound ∧
            ∃ t' s', Steps Program.Step s t' s' ∧ s'.engine.execute = .idle) := by
  have hpieces := hg.pieces
  refine ⟨transforms.length + 2, _, fun fuel hfuel => hg.build_eq hkeys hfuel, ?_, ?_⟩
  · rintro ⟨fuel, outs, hrun⟩
    exact Program.ends_of_inOrder hpieces hrun
  · rintro ⟨bound, hbound⟩
    obtain ⟨-, t, s, ht, hidle⟩ := hbound [] _ (.nil _)
    obtain ⟨m, outs, hrun⟩ :=
      hpieces.exists_inOrder (Program.steps_job ht).2 (Program.job_finished_of_idle ht hidle)
    exact ⟨m, outs, hrun m (Nat.le_refl m)⟩

/-- The job of this graph can always come to its end. -/
theorem execute_ends_iff_pairs : ∃ pipelines bound,
    ExecutionGraph.build 3 pairs.inDegreeKeys pairs = some pipelines ∧
      ∀ t s, Steps Program.Step (Program.start pipelines.length pipelines) t s →
        Program.slotSteps t ≤ bound ∧
          ∃ t' s', Steps Program.Step s t' s' ∧ s'.engine.execute = .idle := by
  obtain ⟨k, pipelines, hbuild, h⟩ :=
    execute_ends_iff pairs_isLinear (List.Perm.refl pairs.inDegreeKeys)
  have hbuild' := hbuild (max k 3) (Nat.le_max_left k 3)
  rw [pairs_isLinear.build_eq (List.Perm.refl _) (Nat.le_max_right k 3)] at hbuild'
  cases hbuild'
  obtain ⟨bound, hbound⟩ := h.mp ⟨5, [.write 0 (eventAt 1), .write 0 (eventAt 3), .closeChannel 0,
    .sink (eventAt 1), .sink (eventAt 3)], by decide +kernel⟩
  exact ⟨_, bound, pairs_isLinear.build_eq (List.Perm.refl _) (Nat.le_refl 3), hbound⟩

end Xtream
