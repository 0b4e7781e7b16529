import Xtream.Engine.SlotEngine

/-!
# One `execute` of a slot engine

* `During`: what a run of `execute` without a `cancel` has done, from the state at its call;
* `During.step`: every step of every thread keeps it.
-/

namespace Xtream

variable {U : Type}

/-- What stays as it is when a pipeline runs: its submission, and whether there is a root. -/
def Pipeline.tag (p : Pipeline U) : Nat × Bool := (p.number, p.root.isEmpty)

namespace Slot

def tag (s : Slot U) : Option (Nat × Bool) := s.pipeline.map Pipeline.tag

theorem rooted_iff {s : Slot U} : s.Rooted ↔ ∃ k, s.tag = some (k, false) := by
  constructor
  · rintro ⟨p, hp, hroot⟩
    exact ⟨p.number, by simp [tag, hp, Pipeline.tag, hroot]⟩
  · rintro ⟨k, hk⟩
    obtain ⟨p, hp, htag⟩ := Option.map_eq_some_iff.mp hk
    refine ⟨p, hp, fun hroot => ?_⟩
    have hempty := (Prod.ext_iff.mp htag).2
    simp [Pipeline.tag, hroot] at hempty

theorem Moves.tag {p p' : Pipeline U} {point point' : RunPoint} {a : RunAction}
    (h : Moves p point a p' point') : p'.tag = p.tag := by
  have hempty : ∀ {ops ops' : Chain U}, ops'.length = ops.length → ops'.isEmpty = ops.isEmpty := by
    intro ops ops' hlen
    cases ops <;> cases ops' <;> first | rfl | cases hlen
  cases h with
  | execute _ hlen _ => exact congrArg (p.number, ·) (hempty hlen)
  | close hlen => exact congrArg (p.number, ·) (hempty hlen)
  | _ => rfl

/-- A step of the thread of a slot that has been started. -/
structure Ran (s s' : Slot U) : Prop where
  tag : s'.tag = s.tag
  live : s.Live
  thread : s'.thread ≠ none ∧ s'.thread ≠ some .call
  running : s'.running = if s'.thread = some .finished then false else s.running
  pipeline : s'.pipeline ≠ none

theorem ran_of_runStep {fuel : Nat} {read : Option (Event Record)} {s s' : Slot U} {a : RunAction}
    (h : s.runStep fuel read = some (a, s')) : s.Ran s' := by
  obtain ⟨point, p, point', p', hthread, hpipeline, hmoves, rfl⟩ := runStep_inv h
  refine ⟨?_, ⟨by simp [hthread], ?_⟩, ⟨by simp, ?_⟩, by simp, by simp⟩
  · simp [tag, hpipeline, hmoves.tag]
  · rw [hthread]
    cases hmoves <;> simp
  · cases hmoves with
    | execute _ _ hpoint => rcases hpoint with rfl | rfl <;> simp
    | _ => simp

end Slot

namespace ExecutePoint

/-- The loop over `pipelines_` is past the slot. -/
def Assigned : ExecutePoint → Nat → Prop
  | assign j, i => i < j
  | _, _ => True

/-- `start` has set `running_` of the slot. -/
def Marked : ExecutePoint → Nat → Prop
  | assign _, _ => False
  | start j, i => i < j
  | spawn j, i => i ≤ j
  | _, _ => True

/-- `start` has made the thread of the slot. -/
def Spawned : ExecutePoint → Nat → Prop
  | assign _, _ => False
  | start j, i => i < j
  | spawn j, i => i < j
  | _, _ => True

/-- The slot has been seen not to run, in this round or at the end. -/
def Polled : ExecutePoint → Nat → Prop
  | poll j, i => i < j
  | idle, _ => True
  | _, _ => False

variable {e : ExecutePoint} {i : Nat}

theorem Spawned.assigned (h : e.Spawned i) : e.Assigned i := by
  cases e with
  | assign j => exact h.elim
  | _ => trivial

end ExecutePoint

namespace SlotEngine

/-- `execute` can be called: every thread has come to its end. -/
structure Calm (s : SlotEngine U) : Prop where
  execute : s.execute = .idle
  cancel : s.cancel = .idle
  slots : ∀ i, ¬ (s.slots i).Live ∧ (s.slots i).running = false
  outside : ∀ i, s.slotCount ≤ i → (s.slots i).thread = none

/-- The pipeline of a slot in a run of `execute`: the one submitted for it, or the one it had. -/
def supply (s : SlotEngine U) (i : Nat) : Option (Nat × Bool) :=
  match s.pipelines[i]? with
  | some p => some p.tag
  | none => (s.slots i).tag

/-- A run of `execute` that was called in the state `s₀`, without a `cancel`. -/
structure During (s₀ s : SlotEngine U) : Prop where
  cancel : s.cancel = .idle
  running : s.running = true
  slotCount : s.slotCount = s₀.slotCount
  outside : ∀ i, s₀.slotCount ≤ i → (s.slots i).thread = none ∧ (s.slots i).running = false
  length : ∀ j, s.execute = .assign j → s.pipelines.length = s₀.pipelines.length
  point : ∀ i, s.execute = .spawn i → i < s₀.slotCount
  pipelines : ∀ i p, s₀.pipelines[i]? = some p → ∃ q, s.pipelines[i]? = some q ∧
    (i < s₀.slotCount → s.execute.Assigned i → q = p.moved) ∧ (¬ s.execute.Assigned i → q = p)
  slots : ∀ i, i < s₀.slotCount → ¬ s.execute.Assigned i → s.slots i = s₀.slots i
  tag : ∀ i, i < s₀.slotCount → s.execute.Assigned i → (s.slots i).tag = s₀.supply i
  waiting : ∀ i, i < s₀.slotCount → ¬ s.execute.Spawned i →
    (s.slots i).thread = (s₀.slots i).thread ∧ ((s.slots i).running = true ↔ s.execute.Marked i)
  spawned : ∀ i, i < s₀.slotCount → s.execute.Spawned i → (s.slots i).thread ≠ none ∧
    ((s.slots i).running = true ↔ (s.slots i).thread ≠ some .finished) ∧
    ((s.slots i).thread ≠ some .call → (s.slots i).pipeline ≠ none)
  polled : ∀ i, i < s₀.slotCount → s.execute.Polled i → (s.slots i).thread = some .finished

/-- The call of `execute`. -/
theorem Calm.during {s : SlotEngine U} (h : s.Calm) :
    During s { s with running := true, execute := .assign 0 } := by
  refine ⟨h.cancel, rfl, rfl, fun i hi => ⟨h.outside i hi, (h.slots i).2⟩, fun j hj => rfl,
    fun i hi => (by cases hi), fun i p hp => ⟨p, hp, ?_, fun _ => rfl⟩, fun i hi _ => rfl,
    fun i hi ha => ?_, fun i hi _ => ⟨rfl, ?_⟩, fun i hi hs => ?_, fun i hi hp => ?_⟩
  · exact fun _ ha => absurd ha (Nat.not_lt_zero i)
  · exact absurd ha (Nat.not_lt_zero i)
  · simp [(h.slots i).2, ExecutePoint.Marked]
  · exact hs.elim
  · exact hp.elim

section

variable {s₀ s s' : SlotEngine U}

theorem During.submit (h : During s₀ s) (p : Pipeline U) (hassign : ∀ i, s.execute ≠ .assign i) :
    During s₀ (s.submit p) := by
  refine ⟨h.cancel, h.running, h.slotCount, h.outside, fun j hj => absurd hj (hassign j), h.point,
    fun i q hq => ?_, h.slots, h.tag, h.waiting, h.spawned, h.polled⟩
  obtain ⟨q', hq', hq''⟩ := h.pipelines i q hq
  have hlt := (List.getElem?_eq_some_iff.mp hq').1
  exact ⟨q', by rw [SlotEngine.submit, List.getElem?_append_left hlt, hq'], hq''⟩

/-- A step of the thread of a slot. -/
theorem During.run (hcalm : s₀.Calm) (h : During s₀ s) {i : Nat} {slot : Slot U}
    (hran : (s.slots i).Ran slot) : During s₀ (s.setSlot i slot) := by
  have hi : i < s₀.slotCount := by
    by_contra hi
    exact hran.live.1 (h.outside i (Nat.not_lt.mp hi)).1
  have hspawned : s.execute.Spawned i := by
    by_contra hnot
    obtain ⟨hthread, -⟩ := h.waiting i hi hnot
    have hlive := hran.live
    rw [Slot.Live, hthread] at hlive
    exact (hcalm.slots i).1 hlive
  refine ⟨h.cancel, h.running, h.slotCount, fun j hj => ?_, h.length, h.point, h.pipelines,
    fun j hj ha => ?_, fun j hj ha => ?_, fun j hj hs => ?_, fun j hj hs => ?_, fun j hj hp => ?_⟩
  · rw [setSlot_slots_of_ne _ _ _ (by omega)]
    exact h.outside j hj
  · have hji : j ≠ i := by
      rintro rfl
      exact ha hspawned.assigned
    rw [setSlot_slots_of_ne _ _ _ hji]
    exact h.slots j hj ha
  · exact (setSlot_frame s i slot Slot.tag hran.tag j).trans (h.tag j hj ha)
  · have hji : j ≠ i := by
      rintro rfl
      exact hs hspawned
    rw [setSlot_slots_of_ne _ _ _ hji]
    exact h.waiting j hj hs
  · by_cases hji : j = i
    · subst hji
      obtain ⟨-, hrunning, -⟩ := h.spawned j hj hspawned
      rw [setSlot_slots_self]
      refine ⟨hran.thread.1, ?_, fun _ => hran.pipeline⟩
      have hlive := hrunning.mpr hran.live.2
      rw [hran.running, hlive]
      by_cases hfinished : slot.thread = some .finished <;> simp [hfinished]
    · rw [setSlot_slots_of_ne _ _ _ hji]
      exact h.spawned j hj hs
  · have hji : j ≠ i := by
      rintro rfl
      exact hran.live.2 (h.polled j hj hp)
    rw [setSlot_slots_of_ne _ _ _ hji]
    exact h.polled j hj hp

/-- A step behind `start_all`, which changes no slot. -/
theorem During.move (h : During s₀ s) {e : ExecutePoint} (he : ∀ i, e.Spawned i)
    (hspawned : ∀ i < s₀.slotCount, s.execute.Spawned i)
    (hpolled : ∀ i < s₀.slotCount, e.Polled i → (s.slots i).thread = some .finished) :
    During s₀ { s with execute := e } := by
  refine ⟨h.cancel, h.running, h.slotCount, h.outside, fun j hj => ?_, fun j hj => ?_,
    fun i p hp => ?_, fun i hi ha => absurd (he i).assigned ha,
    fun i hi _ => h.tag i hi (hspawned i hi).assigned, fun i hi hs => absurd (he i) hs,
    fun i hi _ => h.spawned i hi (hspawned i hi), hpolled⟩
  · have hfirst := he 0
    rw [show e = .assign j from hj] at hfirst
    exact hfirst.elim
  · have hself := he j
    rw [show e = .spawn j from hj] at hself
    exact absurd hself (Nat.lt_irrefl j)
  · obtain ⟨q, hq, hmoved, -⟩ := h.pipelines i p hp
    exact ⟨q, hq, fun hi _ => hmoved hi (hspawned i hi).assigned,
      fun ha => absurd (he i).assigned ha⟩

/-- The pipeline of a slot that has not been assigned yet. -/
theorem During.supply_eq (h : During s₀ s) {i : Nat} (hi : i < s₀.slotCount)
    (ha : ¬ s.execute.Assigned i) (hlen : s.pipelines.length = s₀.pipelines.length) :
    s₀.supply i = match s.pipelines[i]? with
      | some p => some p.tag
      | none => (s.slots i).tag := by
  have hsame : s.pipelines[i]? = s₀.pipelines[i]? := by
    cases hp : s₀.pipelines[i]? with
    | none =>
      rw [List.getElem?_eq_none_iff] at hp ⊢
      omega
    | some p =>
      obtain ⟨q, hq, -, hqp⟩ := h.pipelines i p hp
      rw [hq, hqp ha]
  rw [supply, hsame, h.slots i hi ha]

/-- The assignment of a slot. -/
theorem During.assign (h : During s₀ s) {i : Nat} {p : Pipeline U} (hpoint : s.execute = .assign i)
    (hp : s.pipelines[i]? = some p) (hi : i < s.slotCount) :
    During s₀ { s.setSlot i ((s.slots i).assign p) with
      pipelines := s.pipelines.set i p.moved
      execute := .assign (i + 1) } := by
  have hlen := h.length i hpoint
  have hnot : ¬ s.execute.Assigned i := by simp [hpoint, ExecutePoint.Assigned]
  have hsupply := h.supply_eq (h.slotCount ▸ hi) hnot hlen
  rw [hp] at hsupply
  have hother : ∀ {j}, j ≠ i →
      (ExecutePoint.Assigned (.assign (i + 1)) j ↔ s.execute.Assigned j) := by
    intro j hj
    rw [hpoint]
    show j < i + 1 ↔ j < i
    omega
  have hslot : ∀ {j}, j ≠ i → (s.setSlot i ((s.slots i).assign p)).slots j = s.slots j :=
    fun hj => setSlot_slots_of_ne _ _ _ hj
  refine ⟨h.cancel, h.running, h.slotCount, fun j hj => ?_, fun j hj => ?_,
    fun j hj => (by cases hj), fun j q hq => ?_, fun j hj ha => ?_, fun j hj ha => ?_,
    fun j hj hs => ?_, fun j hj hs => hs.elim, fun j hj hp => hp.elim⟩
  · show ((s.setSlot i _).slots j).thread = none ∧ ((s.setSlot i _).slots j).running = false
    rw [hslot (by have := h.slotCount; omega)]
    exact h.outside j hj
  · exact List.length_set.trans hlen
  · obtain ⟨q', hq', hmoved, hsame⟩ := h.pipelines j q hq
    by_cases hji : j = i
    · subst hji
      have hpq : p = q := (Option.some.inj (hp.symm.trans hq')).trans (hsame hnot)
      refine ⟨p.moved, ?_, fun _ _ => by rw [hpq], fun ha => absurd (Nat.lt_succ_self j) ha⟩
      exact List.getElem?_set_self (List.getElem?_eq_some_iff.mp hp).1
    · refine ⟨q', ?_, fun hj ha => hmoved hj ((hother hji).mp ha),
        fun ha => hsame fun ha' => ha ((hother hji).mpr ha')⟩
      exact (List.getElem?_set_ne (Ne.symm hji)).trans hq'
  · have hji : j ≠ i := by
      rintro rfl
      exact ha (Nat.lt_succ_self j)
    exact (hslot hji).trans (h.slots j hj fun ha' => ha ((hother hji).mpr ha'))
  · by_cases hji : j = i
    · subst hji
      show ((s.setSlot j _).slots j).tag = _
      rw [setSlot_slots_self, hsupply]
      rfl
    · show ((s.setSlot i _).slots j).tag = _
      rw [hslot hji]
      exact h.tag j hj ((hother hji).mp ha)
  · have hwaiting := h.waiting j hj (by simp [hpoint, ExecutePoint.Spawned])
    rw [hpoint] at hwaiting
    show ((s.setSlot i _).slots j).thread = _ ∧ (((s.setSlot i _).slots j).running = true ↔ _)
    rw [setSlot_frame s i ((s.slots i).assign p) Slot.thread rfl,
      setSlot_frame s i ((s.slots i).assign p) Slot.running rfl]
    exact hwaiting

/-- The end of the loop over `pipelines_`. -/
theorem During.assigned (h : During s₀ s) {i : Nat} (hpoint : s.execute = .assign i)
    (hle : s.pipelines.length ≤ i ∨ s.slotCount ≤ i) :
    During s₀ { s with execute := .start 0 } := by
  have hlen := h.length i hpoint
  refine ⟨h.cancel, h.running, h.slotCount, h.outside, fun j hj => (by cases hj),
    fun j hj => (by cases hj), fun j p hp => ?_, fun j hj ha => absurd trivial ha,
    fun j hj _ => ?_, fun j hj hs => ?_, fun j hj hs => absurd hs (Nat.not_lt_zero j),
    fun j hj hp => hp.elim⟩
  · obtain ⟨q, hq, hmoved, -⟩ := h.pipelines j p hp
    refine ⟨q, hq, fun hj _ => hmoved hj ?_, fun ha => absurd trivial ha⟩
    have hlt := (List.getElem?_eq_some_iff.mp hp).1
    have := h.slotCount
    rw [hpoint]
    show j < i
    omega
  · by_cases ha : s.execute.Assigned j
    · exact h.tag j hj ha
    · rw [h.supply_eq hj ha hlen]
      have hij : ¬ j < i := by
        rw [hpoint] at ha
        exact ha
      have := h.slotCount
      have hnone : s.pipelines[j]? = none := List.getElem?_eq_none_iff.mpr (by omega)
      rw [hnone]
  · have hwaiting := h.waiting j hj (by simp [hpoint, ExecutePoint.Spawned])
    rw [hpoint] at hwaiting
    exact ⟨hwaiting.1, hwaiting.2.trans (by simp [ExecutePoint.Marked])⟩

/-- `start` of a slot, before its thread. -/
theorem During.mark (h : During s₀ s) {i : Nat} (hpoint : s.execute = .start i)
    (hi : i < s.slotCount) :
    During s₀ { s.setSlot i (s.slots i).mark with execute := .spawn i } := by
  have hslot : ∀ {j}, j ≠ i → (s.setSlot i (s.slots i).mark).slots j = s.slots j :=
    fun hj => setSlot_slots_of_ne _ _ _ hj
  have hall : ∀ j, s.execute.Assigned j := fun j => by rw [hpoint]; trivial
  refine ⟨h.cancel, h.running, h.slotCount, fun j hj => ?_, fun j hj => (by cases hj),
    fun j hj => ?_, fun j p hp => ?_, fun j hj ha => absurd trivial ha, fun j hj _ => ?_,
    fun j hj hs => ?_, fun j hj hs => ?_, fun j hj hp => hp.elim⟩
  · show ((s.setSlot i _).slots j).thread = none ∧ ((s.setSlot i _).slots j).running = false
    rw [hslot (by have := h.slotCount; omega)]
    exact h.outside j hj
  · cases hj
    exact h.slotCount ▸ hi
  · obtain ⟨q, hq, hmoved, -⟩ := h.pipelines j p hp
    exact ⟨q, hq, fun hj _ => hmoved hj (hall j), fun ha => absurd trivial ha⟩
  · exact (setSlot_frame s i (s.slots i).mark Slot.tag rfl j).trans (h.tag j hj (hall j))
  · have hwaiting := h.waiting j hj (by rw [hpoint]; exact hs)
    rw [hpoint] at hwaiting
    show ((s.setSlot i _).slots j).thread = _ ∧ (((s.setSlot i _).slots j).running = true ↔ j ≤ i)
    by_cases hji : j = i
    · subst hji
      rw [setSlot_slots_self]
      exact ⟨hwaiting.1, by simp [Slot.mark]⟩
    · rw [hslot hji]
      refine ⟨hwaiting.1, hwaiting.2.trans ?_⟩
      show j < i ↔ j ≤ i
      omega
  · have hlt : j < i := hs
    show ((s.setSlot i _).slots j).thread ≠ none ∧ _
    rw [hslot (Nat.ne_of_lt hlt)]
    exact h.spawned j hj (by rw [hpoint]; exact hlt)

/-- The thread of a slot. -/
theorem During.spawn (h : During s₀ s) {i : Nat} (hpoint : s.execute = .spawn i) :
    During s₀ { s.setSlot i (s.slots i).spawn with execute := .start (i + 1) } := by
  have hi := h.point i hpoint
  have hslot : ∀ {j}, j ≠ i → (s.setSlot i (s.slots i).spawn).slots j = s.slots j :=
    fun hj => setSlot_slots_of_ne _ _ _ hj
  have hall : ∀ j, s.execute.Assigned j := fun j => by rw [hpoint]; trivial
  have hwaiting := h.waiting i hi (by simp [hpoint, ExecutePoint.Spawned])
  rw [hpoint] at hwaiting
  have hrunning : (s.slots i).running = true := hwaiting.2.mpr (Nat.le_refl i)
  refine ⟨h.cancel, h.running, h.slotCount, fun j hj => ?_, fun j hj => (by cases hj),
    fun j hj => (by cases hj), fun j p hp => ?_, fun j hj ha => absurd trivial ha, fun j hj _ => ?_,
    fun j hj hs => ?_, fun j hj hs => ?_, fun j hj hp => hp.elim⟩
  · show ((s.setSlot i _).slots j).thread = none ∧ ((s.setSlot i _).slots j).running = false
    rw [hslot (by omega)]
    exact h.outside j hj
  · obtain ⟨q, hq, hmoved, -⟩ := h.pipelines j p hp
    exact ⟨q, hq, fun hj _ => hmoved hj (hall j), fun ha => absurd trivial ha⟩
  · exact (setSlot_frame s i (s.slots i).spawn Slot.tag rfl j).trans (h.tag j hj (hall j))
  · have hge : ¬ j < i + 1 := hs
    have hwaiting' := h.waiting j hj (by
      rw [hpoint]
      show ¬ j < i
      omega)
    rw [hpoint] at hwaiting'
    show ((s.setSlot i _).slots j).thread = _ ∧
      (((s.setSlot i _).slots j).running = true ↔ j < i + 1)
    rw [hslot (by omega)]
    refine ⟨hwaiting'.1, hwaiting'.2.trans ?_⟩
    show j ≤ i ↔ j < i + 1
    omega
  · have hlt : j < i + 1 := hs
    show ((s.setSlot i _).slots j).thread ≠ none ∧
      (((s.setSlot i _).slots j).running = true ↔ _) ∧ _
    by_cases hji : j = i
    · subst hji
      rw [setSlot_slots_self]
      refine ⟨by simp [Slot.spawn], ?_, fun hne => absurd rfl hne⟩
      simp [Slot.spawn, hrunning]
    · rw [hslot hji]
      exact h.spawned j hj (by
        rw [hpoint]
        show j < i
        omega)

/-- A step of `execute`. -/
theorem During.executor (h : During s₀ s) (hstep : Executes s s') : During s₀ s' := by
  have hcount := h.slotCount
  cases hstep with
  | assign hpoint hp hi => exact h.assign hpoint hp hi
  | assigned hpoint hle => exact h.assigned hpoint hle
  | @skip i hpoint hi hrunning =>
    -- no slot runs before it is started
    have hwaiting := h.waiting i (hcount ▸ hi) (by simp [hpoint, ExecutePoint.Spawned])
    have hmarked := hwaiting.2.mp hrunning
    simp [hpoint, ExecutePoint.Marked] at hmarked
  | mark hpoint hi _ => exact h.mark hpoint hi
  | started hpoint hle =>
    refine h.move (fun _ => trivial) (fun j hj => ?_) (fun j hj hp => hp.elim)
    rw [hpoint]
    exact Nat.lt_of_lt_of_le (hcount ▸ hj) hle
  | spawn hpoint _ => exact h.spawn hpoint
  | test hpoint =>
    rw [if_pos h.running]
    exact h.move (fun _ => trivial) (fun j hj => by rw [hpoint]; trivial)
      (fun j hj hp => absurd hp (Nat.not_lt_zero j))
  | busy hpoint _ _ =>
    exact h.move (fun _ => trivial) (fun j hj => by rw [hpoint]; trivial) (fun j hj hp => hp.elim)
  | @next i hpoint _ hrunning =>
    refine h.move (fun _ => trivial) (fun j hj => by rw [hpoint]; trivial) (fun j hj hp => ?_)
    rcases Nat.lt_succ_iff_lt_or_eq.mp hp with hlt | rfl
    · exact h.polled j hj (by rw [hpoint]; exact hlt)
    · obtain ⟨-, hiff, -⟩ := h.spawned j hj (by rw [hpoint]; trivial)
      by_contra hlive
      exact Bool.false_ne_true (hrunning.symm.trans (hiff.mpr hlive))
  | done hpoint hle =>
    refine h.move (fun _ => trivial) (fun j hj => by rw [hpoint]; trivial) (fun j hj _ => ?_)
    exact h.polled j hj (by rw [hpoint]; exact Nat.lt_of_lt_of_le (hcount ▸ hj) hle)

/-- A step of any thread, other than the next call of `execute` or a `cancel`. -/
theorem During.step (hcalm : s₀.Calm) (h : During s₀ s) {a : EngineAction U} (hstep : Step s a s')
    (hexecute : a ≠ .execute) (hcancel : a ≠ .cancel) : During s₀ s' := by
  cases hstep with
  | submit p _ hassign => exact h.submit p hassign
  | execute _ _ => exact absurd rfl hexecute
  | cancel _ => exact absurd rfl hcancel
  | executor hs => exact h.executor (executorStep_inv hs)
  | canceller hs => exact absurd h.cancel (cancellerStep_inv hs).ne_idle
  | run hrun => exact h.run hcalm (Slot.ran_of_runStep hrun)

end

end SlotEngine

end Xtream
