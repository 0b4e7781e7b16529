import Xtream.Engine.Slot

/-!
# Stopping a slot

`Pipeline::run` starts with `running_ = true`, on the slot's thread. A stop that comes before this
store is lost; one that comes after it ends the loop at the next test. `thread_.join()` throws when
the slot has not been started since it was stopped last.

* `stop_not_lost`: a stop that comes after the store;
* `stop_lost`: one that comes before it;
* `noThrow_iff`: when `stop` does not throw.
-/

namespace Xtream

open KahnNetwork (Steps)

/-- An execution of the root. -/
def SlotAction.isExecute {U : Type} : SlotAction U → Bool
  | .run .execute => true
  | _ => false

namespace ControlledSlot

variable {U : Type} {s s' : ControlledSlot U} {a : SlotAction U} {t : List (SlotAction U)}

/-! ## The stop -/

/-- The loop of the pipeline is stopped: its thread has stored `running_`, or there is none, and
`running_` is false. -/
def Stopped (s : ControlledSlot U) : Prop :=
  s.slot.thread ≠ some .call ∧ ∀ p, s.slot.pipeline = some p → p.running = false

/-- A `stop` waits for a loop that is stopped, or the slot has no thread. -/
def Quiet (s : ControlledSlot U) : Prop :=
  s.slot.thread = none ∨ (s.control = .joining ∧ s.Stopped)

/-- The executions of the root that have passed the test of the loop. -/
def pending (s : ControlledSlot U) : Nat := if s.slot.thread = some .execute then 1 else 0

/-- A step of a thread whose pipeline is stopped. -/
theorem Stopped.run {slot slot' : Slot U} {c : Control} {a : RunAction} {fuel : Nat}
    {read : Option (Event Record)} (h : Stopped ⟨slot, c⟩)
    (hrun : slot.runStep fuel read = some (a, slot')) : Stopped ⟨slot', c⟩ ∧ a ≠ .test true ∧
      [SlotAction.run (U := U) a].countP SlotAction.isExecute + pending ⟨slot', c⟩ ≤
        pending ⟨slot, c⟩ := by
  obtain ⟨point, p, point', p', hthread, hpipeline, hmoves, rfl⟩ := Slot.runStep_inv hrun
  have hrunning := h.2 p hpipeline
  have hstopped : p'.running = false := by
    cases hmoves with
    | begin => exact absurd hthread h.1
    | _ => exact hrunning
  have hpipeline' : ∀ q, some p' = some q → q.running = false := by
    intro q hq
    cases hq
    exact hstopped
  cases hmoves with
  | begin => exact absurd hthread h.1
  | go hgo => cases hgo.symm.trans hrunning
  | halt _ => exact ⟨⟨by simp, hpipeline'⟩, by simp, by simp [SlotAction.isExecute, pending]⟩
  | execute _ _ hpoint =>
    refine ⟨⟨?_, hpipeline'⟩, by simp, ?_⟩
    · rcases hpoint with rfl | rfl <;> simp
    · rcases hpoint with rfl | rfl <;> simp [SlotAction.isExecute, pending, hthread]
  | close _ => exact ⟨⟨by simp, hpipeline'⟩, by simp, by simp [SlotAction.isExecute, pending]⟩
  | leave => exact ⟨⟨by simp, hpipeline'⟩, by simp, by simp [SlotAction.isExecute, pending]⟩

/-- A step after the stop: the loop does not go on, and an execution of the root was pending. -/
theorem Quiet.step (h : s.Quiet) (hstep : Step s a s') (ha : a ≠ .spawn) :
    s'.Quiet ∧ a ≠ .run (.test true) ∧
      [a].countP SlotAction.isExecute + s'.pending ≤ s.pending := by
  cases hstep with
  | running hrunning => exact ⟨h, by simp, (Nat.zero_add _).le⟩
  | spawn hlive => exact absurd rfl ha
  | join hthread =>
    exact ⟨Or.inl rfl, by simp, by simp [SlotAction.isExecute, pending, Slot.join]⟩
  | run hrun =>
    rcases h with h | ⟨hcontrol, hstopped⟩
    · obtain ⟨point, p, point', p', hthread, -⟩ := Slot.runStep_inv hrun
      cases hthread.symm.trans h
    · obtain ⟨hstopped', ha', hcount⟩ := hstopped.run hrun
      exact ⟨Or.inr ⟨hcontrol, hstopped'⟩, fun heq => ha' (SlotAction.run.inj heq), hcount⟩
  | _ =>
    -- the other calls are made by a thread that does not wait
    rcases h with h | ⟨h, -⟩
    · exact ⟨Or.inl h, by simp, (Nat.zero_add _).le⟩
    · cases h

/-- The steps after the stop, until the slot is started again. -/
theorem Quiet.steps (h : s.Quiet) (hsteps : Steps Step s t s') (ht : .spawn ∉ t) :
    s'.Quiet ∧ .run (.test true) ∉ t ∧ t.countP SlotAction.isExecute ≤ s.pending := by
  induction hsteps with
  | nil s => exact ⟨h, List.not_mem_nil, Nat.zero_le _⟩
  | @cons s s' s'' a t hstep _ ih =>
    obtain ⟨hquiet, ha, hcount⟩ := h.step hstep fun ha => ht (ha ▸ List.mem_cons_self)
    obtain ⟨hquiet', ht', hcount'⟩ := ih hquiet fun hmem => ht (List.mem_cons_of_mem _ hmem)
    refine ⟨hquiet', fun hmem => ?_, ?_⟩
    · rcases List.mem_cons.mp hmem with hmem | hmem
      · exact ha hmem.symm
      · exact ht' hmem
    · rw [← List.singleton_append, List.countP_append]
      omega

/-- Each stop of a started slot comes after the store of its thread. -/
def StoredBeforeStop (t : List (SlotAction U)) : Prop :=
  ∀ before mid after : List (SlotAction U),
    t = before ++ .spawn :: (mid ++ .stop :: after) → .spawn ∉ mid → .run .begin ∈ mid

/-- A thread that has not stored `running_` has just been started, or it was there before. -/
theorem Step.call (hstep : Step s a s') (hcall : s'.slot.thread = some .call) :
    a = .spawn ∨ (s.slot.thread = some .call ∧ a ≠ .run .begin) := by
  cases hstep with
  | spawn hlive => exact Or.inl rfl
  | join hthread => cases hcall
  | run hrun =>
    obtain ⟨point, p, point', p', hthread, hpipeline, hmoves, rfl⟩ := Slot.runStep_inv hrun
    obtain rfl := Option.some.inj hcall
    cases hmoves with
    | execute _ _ hpoint => rcases hpoint with h | h <;> cases h
  | _ => exact Or.inr ⟨hcall, by simp⟩

theorem store_missing (h : Steps Step {} t s) (hcall : s.slot.thread = some .call) :
    ∃ before mid : List (SlotAction U),
      t = before ++ .spawn :: mid ∧ .spawn ∉ mid ∧ .run .begin ∉ mid := by
  have hinv := @Steps.history _ _ (Step (U := U)) (fun t s => s.slot.thread = some .call →
    ∃ before mid : List (SlotAction U),
      t = before ++ .spawn :: mid ∧ .spawn ∉ mid ∧ .run .begin ∉ mid)
    (fun t s a s' ih hstep hcall => by
      by_cases ha : a = .spawn
      · exact ⟨t, [], by rw [ha], List.not_mem_nil, List.not_mem_nil⟩
      · obtain ⟨hcall', hbegin⟩ := (hstep.call hcall).resolve_left ha
        obtain ⟨before, mid, rfl, hspawn, hmid⟩ := ih hcall'
        refine ⟨before, mid ++ [a], by simp, ?_, ?_⟩
        · simpa [hspawn] using fun h => ha h.symm
        · simpa [hmid] using fun h => hbegin h.symm) {} s [] t
    (fun hcall => by cases hcall) h
  exact hinv hcall

/-- A step whose stop comes after the store. -/
def StoredStep (s : ControlledSlot U) (a : SlotAction U) (s' : ControlledSlot U) : Prop :=
  Step s a s' ∧ (a = .stop → s.slot.thread ≠ some .call)

theorem storedSteps (h : Steps Step {} t s) (ht : StoredBeforeStop t) :
    Steps StoredStep {} t s := by
  refine h.guard fun before a after s₁ _ heq hbefore _ ha hcall => ?_
  obtain ⟨start, mid, rfl, hspawn, hbegin⟩ := store_missing hbefore hcall
  exact hbegin (ht start mid after (by simp [heq, ha]) hspawn)

/-- While a stop waits, the loop is stopped. -/
theorem StoredStep.joining (hstep : StoredStep s a s') (h : s.control = .joining → s.Stopped) :
    s'.control = .joining → s'.Stopped := by
  intro hcontrol
  obtain ⟨hstep, hstored⟩ := hstep
  cases hstep with
  | stop =>
    refine ⟨hstored rfl, fun p hp => ?_⟩
    obtain ⟨q, -, rfl⟩ := Option.map_eq_some_iff.mp hp
    rfl
  | run hrun => exact (Stopped.run (h hcontrol) hrun).1
  | _ => cases hcontrol

/-- **A stop is not lost** when it comes after the store: from then on, until the slot is started
again, no test of the loop reads true, and at most one execution of the root comes to its end. So
`thread_.join()` waits for a loop that is stopped. -/
theorem stop_not_lost (h : Steps Step {} t s) (ht : StoredBeforeStop t) :
    (∀ before after : List (SlotAction U), t = before ++ .stop :: after → .spawn ∉ after →
      .run (.test true) ∉ after ∧ after.countP SlotAction.isExecute ≤ 1) ∧
    (s.control = .joining → s.Stopped) := by
  have hsteps := storedSteps h ht
  constructor
  · intro before after heq hafter
    rw [heq, Steps.append_iff] at hsteps
    obtain ⟨s₁, -, hrest⟩ := hsteps
    obtain ⟨s₂, hstop, hafter'⟩ := Steps.cons_iff.mp hrest
    obtain ⟨hcontrol, hcontrol'⟩ : s₁.control = .idle ∧ s₂.control = .joining := by
      obtain ⟨hstep, -⟩ := hstop
      cases hstep
      exact ⟨rfl, rfl⟩
    have hstopped := hstop.joining (fun hjoining => by cases hcontrol.symm.trans hjoining) hcontrol'
    obtain ⟨-, htest, hcount⟩ := Quiet.steps (Or.inr ⟨hcontrol', hstopped⟩)
      (hafter'.mono fun _ _ _ hstep => hstep.1) hafter
    refine ⟨htest, hcount.trans ?_⟩
    unfold pending
    split <;> omega
  · exact hsteps.invariant (I := fun s => s.control = .joining → s.Stopped)
      (fun s a s' hs hstep => hstep.joining hs) fun h => by cases h

/-- A stop is lost when it comes before the store: the thread then stores true and reads it. -/
theorem stop_lost {slot : Slot U} {p : Pipeline U} (hcall : slot.thread = some .call)
    (hpipeline : slot.pipeline = some p) : ∃ s', Steps Step ⟨slot, .idle⟩
      [.stop, .run .begin, .run (.test true)] s' ∧ s'.control = .joining := by
  obtain ⟨pipeline, thread, running⟩ := slot
  cases hcall
  cases hpipeline
  exact ⟨⟨⟨some { p with running := true }, some .execute, running⟩, .joining⟩,
    .cons .stop (.cons (@Step.run U _ _ _ _ 0 none rfl) (.single (@Step.run U _ _ _ _ 0 none rfl))),
    rfl⟩

/-- A pipeline whose source does not come to an end. -/
def endless : Pipeline Unit where
  root := [.source (.create (fun u => (some (eventAt 1), u)) () 0 100), .sink ⟨fun u _ => u, ()⟩]

/-- The loop is running. -/
def endlessStart : List (SlotAction Unit) :=
  [.assign endless, .start, .spawn, .run .begin, .run (.test true)]

/-- The execution that has begun, and the end of the thread. -/
def endlessEnd : List (SlotAction Unit) :=
  [.run .execute, .run (.test false), .run .close, .run (.leave 0)]

/-- The stop of a loop that is running ends it. -/
theorem stop_not_lost_endless : ∃ s : ControlledSlot Unit,
    Steps Step {} (endlessStart ++ .stop :: endlessEnd) s ∧
    StoredBeforeStop (endlessStart ++ .stop :: endlessEnd) ∧
    .run (.test true) ∈ endlessStart ∧ .run (.test true) ∉ endlessEnd ∧
    endlessEnd.countP SlotAction.isExecute ≤ 1 ∧ s.control = .joining ∧ s.Stopped := by
  have hsteps : ∃ s : ControlledSlot Unit,
      Steps Step {} (endlessStart ++ .stop :: endlessEnd) s ∧ s.control = .joining :=
    ⟨_, .cons (.assign endless (by decide)) (.cons (.start rfl) (.cons (.spawn (by decide)) (.cons
      (@Step.run Unit _ _ _ _ 1 none rfl) (.cons (@Step.run Unit _ _ _ _ 1 none rfl) (.cons .stop
      (.cons (@Step.run Unit _ _ _ _ 1 none rfl) (.cons (@Step.run Unit _ _ _ _ 1 none rfl) (.cons
      (@Step.run Unit _ _ _ _ 1 none rfl) (.single (@Step.run Unit _ _ _ _ 1 none rfl)))))))))),
      rfl⟩
  obtain ⟨s, hsteps, hcontrol⟩ := hsteps
  have hstored : StoredBeforeStop (endlessStart ++ .stop :: endlessEnd) := by
    intro before mid after heq hmid
    -- the start of the thread is the third step, and the store the fourth
    rcases before with _ | ⟨_, _ | ⟨_, _ | ⟨_, before⟩⟩⟩
    · simp [endlessStart] at heq
    · simp [endlessStart] at heq
    · rcases mid with _ | ⟨_, mid⟩
      · simp [endlessStart] at heq
      · simp [endlessStart] at heq
        simp [← heq.2.2.1]
    · have hmem : SlotAction.spawn ∈ SlotAction.run (U := Unit) .begin :: .run (.test true) ::
          .stop :: endlessEnd := by
        simp [endlessStart] at heq
        rw [heq.2.2.2]
        simp
      simp [endlessEnd] at hmem
  obtain ⟨hstops, hjoining⟩ := stop_not_lost hsteps hstored
  obtain ⟨htest, hcount⟩ := hstops endlessStart endlessEnd rfl (by simp [endlessEnd])
  exact ⟨s, hsteps, hstored, by simp [endlessStart], htest, hcount, hcontrol, hjoining hcontrol⟩

/-- The stop of a slot that has just been started may be lost: the loop goes on, and the join
waits for it. -/
theorem stop_lost_endless : ¬ ∀ (t : List (SlotAction Unit)) (s : ControlledSlot Unit),
    Steps Step {} t s → ∀ before after : List (SlotAction Unit),
      t = before ++ .stop :: after → .spawn ∉ after →
      .run (.test true) ∉ after := by
  intro h
  have hsteps : ∃ s : ControlledSlot Unit, Steps Step {} [.assign endless, .start, .spawn, .stop,
      .run .begin, .run (.test true), .run .execute, .run (.test true)] s :=
    ⟨_, .cons (.assign endless (by decide)) (.cons (.start rfl) (.cons (.spawn (by decide)) (.cons
      .stop (.cons (@Step.run Unit _ _ _ _ 1 none rfl) (.cons (@Step.run Unit _ _ _ _ 1 none rfl)
      (.cons (@Step.run Unit _ _ _ _ 1 none rfl)
      (.single (@Step.run Unit _ _ _ _ 1 none rfl))))))))⟩
  obtain ⟨s, hsteps⟩ := hsteps
  exact h _ s hsteps [.assign endless, .start, .spawn] _ rfl (by simp) (by simp)

/-! ## The join -/

/-- The slot has been started since it was stopped last. -/
def started (t : List (SlotAction U)) : Bool :=
  t.foldl (fun b a => match a with
    | .spawn => true
    | .stop => false
    | _ => b) false

/-- Each stop finds a slot that has been started since the last stop. -/
def StartedBeforeStop (t : List (SlotAction U)) : Prop :=
  ∀ before after : List (SlotAction U), t = before ++ .stop :: after → started before = true

/-- No `thread_.join()` throws on the way. -/
def NoThrow (t : List (SlotAction U)) : Prop :=
  ∀ (before after : List (SlotAction U)) (s : ControlledSlot U),
    t = before ++ after → Steps Step {} before s → ¬ s.Throws

/-- `started` says whether the thread is joinable. -/
structure Joinable (t : List (SlotAction U)) (s : ControlledSlot U) : Prop where
  thread : s.control = .idle ∨ s.control = .starting → (s.slot.thread ≠ none ↔ started t = true)
  stopped : s.control = .joining ∨ s.control = .clearing → started t = false
  joined : s.control = .clearing → s.slot.thread = none

theorem Joinable.step (h : Joinable t s) (hstep : Step s a s') : Joinable (t ++ [a]) s' := by
  have happend : started (t ++ [a]) = match a with
      | .spawn => true
      | .stop => false
      | _ => started t := by
    unfold started
    rw [List.foldl_append]
    cases a <;> rfl
  cases hstep with
  | spawn hlive => exact ⟨fun _ => by simp [happend, Slot.spawn], by simp, by simp⟩
  | stop => exact ⟨by simp, fun _ => happend, by simp⟩
  | join hthread => exact ⟨by simp, fun _ => happend.trans (h.stopped (Or.inl rfl)), fun _ => rfl⟩
  | clear =>
    refine ⟨fun _ => ?_, by simp, by simp⟩
    have hjoined := h.joined rfl
    simpa [happend, Slot.clear, h.stopped (Or.inr rfl)] using hjoined
  | run hrun =>
    obtain ⟨point, p, point', p', hthread, -, -, rfl⟩ := Slot.runStep_inv hrun
    refine ⟨fun hc => ?_, fun hc => happend.trans (h.stopped hc), fun hc => ?_⟩
    · have hiff := h.thread hc
      rw [hthread] at hiff
      simpa [happend] using hiff
    · cases hthread.symm.trans (h.joined hc)
  | _ => exact ⟨fun _ => by rw [happend]; exact h.thread (Or.inl rfl), by simp, by simp⟩

theorem joinable (h : Steps Step {} t s) : Joinable t s :=
  @Steps.history _ _ (Step (U := U)) Joinable (fun _ _ _ _ h hstep => h.step hstep) {} s [] t
    ⟨fun _ => by simp [started], by simp, by simp⟩ h

/-- Where no thread is live: a slot that does not run has none. -/
structure Marked (s : ControlledSlot U) : Prop where
  live : s.slot.Live → s.slot.running = true
  starting : s.control = .starting → s.slot.running = true ∧ ¬ s.slot.Live

theorem Marked.step (h : s.Marked) (hjoined : s.control = .clearing → s.slot.thread = none)
    (hstep : Step s a s') : s'.Marked := by
  cases hstep with
  | start hrunning =>
    refine ⟨fun _ => rfl, fun _ => ⟨rfl, fun hlive => ?_⟩⟩
    cases hrunning.symm.trans (h.live hlive)
  | spawn hlive => exact ⟨fun _ => (h.starting rfl).1, fun hc => by cases hc⟩
  | join hthread => exact ⟨fun hlive => absurd rfl hlive.1, fun hc => by cases hc⟩
  | clear => exact ⟨fun hlive => absurd (hjoined rfl) hlive.1, fun hc => by cases hc⟩
  | run hrun =>
    obtain ⟨point, p, point', p', hthread, -, hmoves, rfl⟩ := Slot.runStep_inv hrun
    have hlive : Slot.Live _ := ⟨by rw [hthread]; simp, by rw [hthread]; cases hmoves <;> simp⟩
    refine ⟨fun hlive' => ?_, fun hc => absurd hlive (h.starting hc).2⟩
    have hpoint : point' ≠ .finished := fun hfin => hlive'.2 (congrArg some hfin)
    exact (if_neg hpoint).trans (h.live hlive)
  | _ => exact ⟨h.live, fun hc => by cases hc⟩

/-- `start` never finds the old thread live, so the new one starts when the old one has come to
its end. -/
theorem not_live_of_starting (h : Steps Step {} t s) (hstarting : s.control = .starting) :
    ¬ s.slot.Live := by
  have hinv := @Steps.history _ _ (Step (U := U)) (fun t s => Joinable t s ∧ s.Marked)
    (fun _ _ _ _ h hstep => ⟨h.1.step hstep, h.2.step h.1.joined hstep⟩) {} s [] t
    ⟨⟨fun _ => by simp [started], by simp, by simp⟩, fun hlive => absurd rfl hlive.1,
      fun hc => by cases hc⟩ h
  exact (hinv.2.starting hstarting).2

/-- A step whose stop finds a joinable thread. -/
def StartedStep (s : ControlledSlot U) (a : SlotAction U) (s' : ControlledSlot U) : Prop :=
  Step s a s' ∧ (a = .stop → s.slot.thread ≠ none)

theorem startedSteps (h : Steps Step {} t s) (ht : StartedBeforeStop t) :
    Steps StartedStep {} t s := by
  refine h.guard fun before a after s₁ s₂ heq hbefore hstep ha => ?_
  subst ha
  have hcontrol : s₁.control = .idle := by
    cases hstep
    rfl
  exact ((joinable hbefore).thread (Or.inl hcontrol)).mpr (ht before after heq)

theorem StartedStep.joining (hstep : StartedStep s a s')
    (h : s.control = .joining → s.slot.thread ≠ none) :
    s'.control = .joining → s'.slot.thread ≠ none := by
  intro hcontrol
  obtain ⟨hstep, hstarted⟩ := hstep
  cases hstep with
  | stop => exact hstarted rfl
  | run hrun =>
    obtain ⟨point, p, point', p', -, -, -, rfl⟩ := Slot.runStep_inv hrun
    simp
  | _ => cases hcontrol

/-- No join throws iff each stop finds a slot that has been started since the last stop. -/
theorem noThrow_iff (h : Steps Step {} t s) : NoThrow t ↔ StartedBeforeStop t := by
  constructor
  · intro hthrow before after heq
    rw [heq, Steps.append_iff] at h
    obtain ⟨s₁, hbefore, hrest⟩ := h
    obtain ⟨s₂, hstop, -⟩ := Steps.cons_iff.mp hrest
    have hno := hthrow (before ++ [.stop]) after s₂ (by simp [heq]) (hbefore.append (.single hstop))
    cases hstop
    exact ((joinable hbefore).thread (Or.inl rfl)).mp fun hnone => hno ⟨rfl, hnone⟩
  · rintro ht before after s₁ heq hbefore ⟨hcontrol, hnone⟩
    have ht' : StartedBeforeStop before := fun b c hb => ht b (c ++ after) (by simp [heq, hb])
    have hinv := (startedSteps hbefore ht').invariant
      (I := fun s => s.control = .joining → s.slot.thread ≠ none)
      (fun s a s' hs hstep => hstep.joining hs) fun h => by cases h
    exact hinv hcontrol hnone

theorem Step.running_eq_false (hstep : Step s a s') (ha : a ≠ .start)
    (h : s.slot.running = false) : s'.slot.running = false := by
  cases hstep with
  | start hrunning => exact absurd rfl ha
  | clear => rfl
  | run hrun =>
    obtain ⟨point, p, point', p', -, -, -, rfl⟩ := Slot.runStep_inv hrun
    show (if point' = .finished then false else _) = false
    split
    · rfl
    · exact h
  | _ => exact h

/-- When `stop` has returned the slot does not run, until it is started again. -/
theorem running_of_clear (h : Steps Step {} t s) {before after : List (SlotAction U)}
    (ht : t = before ++ .clear :: after) (hafter : .start ∉ after) : s.slot.running = false := by
  rw [ht, Steps.append_iff] at h
  obtain ⟨s₁, -, hrest⟩ := h
  obtain ⟨s₂, hclear, hsteps⟩ := Steps.cons_iff.mp hrest
  have hrunning : s₂.slot.running = false := by
    cases hclear
    rfl
  exact hsteps.invariant_of_notMem (I := fun s => s.slot.running = false)
    (fun s a s' hs hstep ha => hstep.running_eq_false ha hs) hrunning hafter

end ControlledSlot

end Xtream
