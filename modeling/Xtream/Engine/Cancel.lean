import Xtream.Engine.Stopping
import Xtream.Engine.Submissions

/-!
# Cancelling a slot engine

`cancel` stops every slot, and `stop` joins the thread of the slot without a look at it: there is no
joinable thread before the first `execute`, while `start_all` is going on, and after a `cancel`.

* `Joining.step`, `Cancelled.step`: what every step keeps while `cancel` goes over the slots;
* `Resting.step`: `execute` never meets a live thread in a slot that it assigns or starts;
* `cancel_safe`: no join throws, and no slot runs when `cancel` has returned, where each `cancel`
  finds every thread started (and, for a single slot, exactly when each `stop` does);
* `cancel_throws`: a `cancel` that finds a slot without a thread throws, as soon as the threads of
  the slots before it have come to their ends.
-/

namespace Xtream

open KahnNetwork (Steps)

namespace CancelPoint

/-- `stop` of the slot has not joined its thread yet. -/
def Ahead : CancelPoint → Nat → Prop
  | idle, _ => False
  | stop j, i => j ≤ i
  | join j, i => j ≤ i
  | clear j, i => j < i

/-- `stop` of the slot has returned. -/
def Passed : CancelPoint → Nat → Prop
  | idle, _ => True
  | stop j, i => i < j
  | join j, i => i < j
  | clear j, i => i < j

end CancelPoint

namespace ExecutePoint

/-- `execute` has not started the slot yet, or it has seen that the slot does not run. -/
def Before : ExecutePoint → Nat → Prop
  | assign _, _ => True
  | start j, i => j ≤ i
  | spawn j, i => j ≤ i
  | poll j, i => i < j
  | _, _ => False

end ExecutePoint

namespace SlotEngine

variable {U : Type} {s s' : SlotEngine U} {a : EngineAction U} {t : List (EngineAction U)} {n : Nat}

theorem Step.slotCount (h : Step s a s') : s'.slotCount = s.slotCount := by
  cases h with
  | executor hs => cases executorStep_inv hs <;> rfl
  | canceller hs => cases cancellerStep_inv hs <;> rfl
  | _ => rfl

theorem Executes.cancel (h : Executes s s') : s'.cancel = s.cancel := by
  cases h <;> rfl

/-- A step of `execute` behind `start_all` changes no slot. -/
theorem Executes.settled (h : Executes s s') (hs : s.Settled) :
    ∃ e, s' = { s with execute := e } ∧ ∀ i, ExecutePoint.Spawned e i := by
  have hfirst := hs 0
  cases h with
  | assign hpoint _ _ =>
    rw [hpoint] at hfirst
    exact hfirst.elim
  | assigned hpoint _ =>
    rw [hpoint] at hfirst
    exact hfirst.elim
  | @skip i hpoint _ _ =>
    have hself := hs i
    rw [hpoint] at hself
    exact absurd hself (Nat.lt_irrefl i)
  | @mark i hpoint _ _ =>
    have hself := hs i
    rw [hpoint] at hself
    exact absurd hself (Nat.lt_irrefl i)
  | @spawn i hpoint _ =>
    have hself := hs i
    rw [hpoint] at hself
    exact absurd hself (Nat.lt_irrefl i)
  | test _ =>
    refine ⟨_, rfl, fun i => ?_⟩
    cases s.running <;> trivial
  | _ => exact ⟨_, rfl, fun i => trivial⟩

/-- `cancel` can be called: `start_all` is not going on, and every slot has a joinable thread. -/
def Ready (s : SlotEngine U) : Prop :=
  s.Settled ∧ ∀ i < s.slotCount, (s.slots i).thread ≠ none

/-- A step whose `cancel` is called when it can be. -/
def ReadyStep (s : SlotEngine U) (a : EngineAction U) (s' : SlotEngine U) : Prop :=
  Step s a s' ∧ (a = .cancel → s.Ready)

theorem readySteps (h : Steps Step s t s') (ht : .cancel ∉ t) : Steps ReadyStep s t s' := by
  refine h.guard fun before a after _ _ heq _ _ ha => ?_
  subst ha
  exact absurd (by simp [heq]) ht

/-! ## The joins -/

/-- The threads that `cancel` is still to join are joinable. -/
structure Joining (s : SlotEngine U) : Prop where
  settled : s.cancel ≠ .idle → s.Settled
  joinable : ∀ i < s.slotCount, s.cancel.Ahead i → (s.slots i).thread ≠ none
  inside : ∀ i, s.cancel = .join i → i < s.slotCount

theorem joining_of_idle (h : s.cancel = .idle) : s.Joining := by
  refine ⟨fun hne => absurd h hne, fun i _ hahead => ?_, fun i hjoin => ?_⟩
  · rw [h] at hahead
    exact hahead.elim
  · cases h.symm.trans hjoin

theorem Joining.not_throws (h : s.Joining) : ¬ s.Throws := by
  rintro ⟨i, hjoin, hthread⟩
  refine h.joinable i (h.inside i hjoin) ?_ hthread
  rw [hjoin]
  exact Nat.le_refl i

/-- A step of `cancel`. -/
theorem Joining.cancels (h : s.Joining) (hcancels : Cancels s s') : s'.Joining := by
  have hsettled : s.Settled := h.settled hcancels.ne_idle
  cases hcancels with
  | @stop i hpoint hi =>
    refine ⟨fun _ => hsettled, fun j hj hahead => ?_, fun j hjoin => ?_⟩
    · show ((s.setSlot i _).slots j).thread ≠ none
      rw [setSlot_frame s i (s.slots i).stopPipeline Slot.thread rfl]
      exact h.joinable j hj (by rw [hpoint]; exact hahead)
    · cases hjoin
      exact hi
  | stopped _ _ => exact joining_of_idle rfl
  | @join i hpoint _ =>
    refine ⟨fun _ => hsettled, fun j hj hahead => ?_, fun j hjoin => by cases hjoin⟩
    have hlt : i < j := hahead
    show ((s.setSlot i _).slots j).thread ≠ none
    rw [setSlot_slots_of_ne _ _ _ (by omega)]
    exact h.joinable j hj (by rw [hpoint]; exact Nat.le_of_lt hlt)
  | @clear i hpoint =>
    refine ⟨fun _ => hsettled, fun j hj hahead => ?_, fun j hjoin => by cases hjoin⟩
    have hlt : i < j := hahead
    show ((s.setSlot i _).slots j).thread ≠ none
    rw [setSlot_slots_of_ne _ _ _ (by omega)]
    exact h.joinable j hj (by rw [hpoint]; exact hlt)

/-- Every step keeps the threads joinable that `cancel` is still to join. -/
theorem Joining.step (h : s.Joining) (hstep : ReadyStep s a s') : s'.Joining := by
  obtain ⟨hstep, hready⟩ := hstep
  cases hstep with
  | submit p hidle _ => exact joining_of_idle hidle
  | execute hidle _ => exact joining_of_idle hidle
  | cancel _ =>
    obtain ⟨hsettled, hthreads⟩ := hready rfl
    exact ⟨fun _ => hsettled, fun i hi _ => hthreads i hi, fun i hjoin => by cases hjoin⟩
  | executor hs =>
    have hexecutes := executorStep_inv hs
    by_cases hidle : s.cancel = .idle
    · exact joining_of_idle (hexecutes.cancel.trans hidle)
    · obtain ⟨e, rfl, he⟩ := hexecutes.settled (h.settled hidle)
      exact ⟨fun _ => he, h.joinable, h.inside⟩
  | canceller hs => exact h.cancels (cancellerStep_inv hs)
  | @run i fuel read a slot hrun =>
    have hran := Slot.ran_of_runStep hrun
    refine ⟨h.settled, fun j hj hahead => ?_, h.inside⟩
    by_cases hji : j = i
    · subst hji
      rw [setSlot_slots_self]
      exact hran.thread.1
    · rw [setSlot_slots_of_ne _ _ _ hji]
      exact h.joinable j hj hahead

/-! ## The threads that are live -/

/-- No thread is live in a slot that `execute` has not started yet or has seen not to run, in one
that `cancel` is past, and in any slot when `execute` and `cancel` have returned. -/
structure Resting (s : SlotEngine U) : Prop where
  before : ∀ i < s.slotCount, s.execute.Before i → ¬ (s.slots i).Live
  passed : s.cancel ≠ .idle → ∀ i < s.slotCount, s.cancel.Passed i → ¬ (s.slots i).Live
  returned : s.cancel = .idle → s.execute = .idle ∨ s.running = false →
    ∀ i < s.slotCount, ¬ (s.slots i).Live
  live : ∀ i, (s.slots i).Live → (s.slots i).running = true
  marked : ∀ i, s.execute = .spawn i → i < s.slotCount ∧ (s.slots i).running = true
  joined : ∀ i, s.cancel = .clear i → (s.slots i).thread = none
  running : s.running = true ∨ s.Settled
  settled : s.cancel ≠ .idle → s.running = false ∧ s.Settled

theorem resting_fresh : ({ slotCount := n } : SlotEngine U).Resting := by
  have hdead : ¬ Slot.Live ({} : Slot U) := fun hlive => hlive.1 rfl
  refine ⟨fun _ _ hbefore => hbefore.elim, fun h => absurd rfl h, fun _ _ _ _ => hdead,
    fun _ hlive => absurd hlive hdead, fun i h => (by cases h), fun i h => (by cases h),
    Or.inr fun _ => trivial, fun h => absurd rfl h⟩

/-- Up to the end of `start_all` no `cancel` is going on. -/
theorem resting_of_begun (hcancel : s.cancel = .idle) (hrunning : s.running = true)
    (hexecute : s.execute ≠ .idle)
    (hbefore : ∀ i < s.slotCount, s.execute.Before i → ¬ (s.slots i).Live)
    (hlive : ∀ i, (s.slots i).Live → (s.slots i).running = true)
    (hmarked : ∀ i, s.execute = .spawn i → i < s.slotCount ∧ (s.slots i).running = true) :
    s.Resting where
  before := hbefore
  passed hc := absurd hcancel hc
  returned _ h := by
    rcases h with h | h
    · exact absurd h hexecute
    · cases hrunning.symm.trans h
  live := hlive
  marked := hmarked
  joined i h := by cases hcancel.symm.trans h
  running := Or.inl hrunning
  settled hc := absurd hcancel hc

/-- Behind `start_all` the slots stay as they are. -/
theorem Resting.settle (h : s.Resting) {e : ExecutePoint} (he : ∀ i, e.Spawned i)
    (hbefore : ∀ i < s.slotCount, e.Before i → ¬ (s.slots i).Live)
    (hreturned : s.cancel = .idle → e = .idle ∨ s.running = false →
      ∀ i < s.slotCount, ¬ (s.slots i).Live) : Resting { s with execute := e } where
  before := hbefore
  passed := h.passed
  returned := hreturned
  live := h.live
  marked i hi := by
    have hself := he i
    rw [show e = .spawn i from hi] at hself
    exact absurd hself (Nat.lt_irrefl i)
  joined := h.joined
  running := Or.inr he
  settled hc := ⟨(h.settled hc).1, he⟩

/-- A step of `execute` finds no live thread in a slot that it assigns or starts. -/
theorem Resting.executes (h : s.Resting) (hexecutes : Executes s s') : s'.Resting := by
  have hbegun : ∀ i, ¬ s.execute.Spawned i → s.cancel = .idle ∧ s.running = true := by
    intro i hi
    have hsettled : ¬ s.Settled := fun hs => hi (hs i)
    exact ⟨by_contra fun hc => hsettled (h.settled hc).2, h.running.resolve_right hsettled⟩
  cases hexecutes with
  | @assign i p hpoint _ _ =>
    obtain ⟨hcancel, hrunning⟩ := hbegun 0 (by rw [hpoint]; exact id)
    have hthread := setSlot_frame s i ((s.slots i).assign p) Slot.thread rfl
    have hmark := setSlot_frame s i ((s.slots i).assign p) Slot.running rfl
    refine resting_of_begun hcancel hrunning (by simp) (fun k hk _ hlive => ?_)
      (fun k hlive => ?_) fun k hk => by cases hk
    · refine h.before k hk (by rw [hpoint]; trivial) ?_
      simpa only [Slot.Live, hthread] using hlive
    · refine (hmark k).trans (h.live k ?_)
      simpa only [Slot.Live, hthread] using hlive
  | @assigned i hpoint _ =>
    obtain ⟨hcancel, hrunning⟩ := hbegun 0 (by rw [hpoint]; exact id)
    exact resting_of_begun hcancel hrunning (by simp)
      (fun k hk _ => h.before k hk (by rw [hpoint]; trivial)) h.live fun k hk => by cases hk
  | @skip i hpoint _ _ =>
    obtain ⟨hcancel, hrunning⟩ := hbegun i (by rw [hpoint]; exact Nat.lt_irrefl i)
    exact resting_of_begun hcancel hrunning (by simp)
      (fun k hk hbefore => h.before k hk (by rw [hpoint]; exact Nat.le_of_succ_le hbefore))
      h.live fun k hk => by cases hk
  | @mark i hpoint hi hstopped =>
    obtain ⟨hcancel, hrunning⟩ := hbegun i (by rw [hpoint]; exact Nat.lt_irrefl i)
    have hthread := setSlot_frame s i (s.slots i).mark Slot.thread rfl
    have hself : ((s.setSlot i (s.slots i).mark).slots i).running = true := by
      rw [setSlot_slots_self]
      rfl
    refine resting_of_begun hcancel hrunning (by simp) (fun k hk hbefore hlive => ?_)
      (fun k hlive => ?_) fun k hk => ?_
    · refine h.before k hk (by rw [hpoint]; exact hbefore) ?_
      simpa only [Slot.Live, hthread] using hlive
    · by_cases hki : k = i
      · rw [hki]
        exact hself
      · show ((s.setSlot i _).slots k).running = true
        rw [setSlot_slots_of_ne _ _ _ hki]
        refine h.live k ?_
        simpa only [Slot.Live, hthread] using hlive
    · cases hk
      exact ⟨hi, hself⟩
  | @started i hpoint hi =>
    obtain ⟨hcancel, hrunning⟩ := hbegun i (by rw [hpoint]; exact Nat.lt_irrefl i)
    exact resting_of_begun hcancel hrunning (by simp) (fun k hk hbefore => hbefore.elim) h.live
      fun k hk => by cases hk
  | @spawn i hpoint hlive =>
    obtain ⟨hcancel, hrunning⟩ := hbegun i (by rw [hpoint]; exact Nat.lt_irrefl i)
    have hmark := setSlot_frame s i (s.slots i).spawn Slot.running rfl
    refine resting_of_begun hcancel hrunning (by simp) (fun k hk hbefore => ?_)
      (fun k hlive' => (hmark k).trans ?_) fun k hk => by cases hk
    · have hlt : i < k := hbefore
      show ¬ ((s.setSlot i _).slots k).Live
      rw [setSlot_slots_of_ne _ _ _ (by omega)]
      exact h.before k hk (by rw [hpoint]; exact hlt.le)
    · by_cases hki : k = i
      · rw [hki]
        exact (h.marked i hpoint).2
      · have hlive'' : ((s.setSlot i (s.slots i).spawn).slots k).Live := hlive'
        rw [setSlot_slots_of_ne _ _ _ hki] at hlive''
        exact h.live k hlive''
  | test hpoint =>
    by_cases hrunning : s.running = true
    · rw [if_pos hrunning]
      refine h.settle (fun i => trivial) (fun k _ hbefore => absurd hbefore (Nat.not_lt_zero k))
        fun _ hor => ?_
      rcases hor with hor | hor
      · cases hor
      · cases hrunning.symm.trans hor
    · rw [if_neg hrunning]
      exact h.settle (fun i => trivial) (fun k _ hbefore => hbefore.elim)
        fun hcancel _ => h.returned hcancel (Or.inr (by simpa using hrunning))
  | @busy i hpoint _ _ =>
    refine h.settle (fun i => trivial) (fun k _ hbefore => hbefore.elim) fun hcancel hor => ?_
    exact h.returned hcancel (Or.inr (hor.resolve_left (by simp)))
  | @next i hpoint _ hstopped =>
    refine h.settle (fun i => trivial) (fun k hk hbefore hlive => ?_) fun hcancel hor => ?_
    · by_cases hki : k = i
      · rw [hki] at hlive
        cases hstopped.symm.trans (h.live i hlive)
      · have hlt : k < i + 1 := hbefore
        refine h.before k hk ?_ hlive
        rw [hpoint]
        show k < i
        omega
    · exact h.returned hcancel (Or.inr (hor.resolve_left (by simp)))
  | @done i hpoint hi =>
    exact h.settle (fun i => trivial) (fun k _ hbefore => hbefore.elim) fun _ _ k hk =>
      h.before k hk (by rw [hpoint]; exact Nat.lt_of_lt_of_le hk hi)

/-- `cancel` changes a slot, and no thread comes to life. -/
theorem Resting.setSlot (h : s.Resting) (hcancel : s.cancel ≠ .idle) {i : Nat} {slot : Slot U}
    {c : CancelPoint} (hc : c ≠ .idle)
    (hlive : slot.Live → (s.slots i).Live ∧ slot.running = (s.slots i).running)
    (hpassed : ∀ k, c.Passed k → s.cancel.Passed k ∨ ¬ ((s.setSlot i slot).slots k).Live)
    (hjoined : ∀ k, c = .clear k → ((s.setSlot i slot).slots k).thread = none) :
    Resting { s.setSlot i slot with cancel := c } := by
  obtain ⟨hrunning, hsettled⟩ := h.settled hcancel
  have hall : ∀ k, ((s.setSlot i slot).slots k).Live → (s.slots k).Live ∧
      ((s.setSlot i slot).slots k).running = (s.slots k).running := by
    intro k hk
    by_cases hki : k = i
    · subst hki
      rw [setSlot_slots_self] at hk ⊢
      exact hlive hk
    · rw [setSlot_slots_of_ne _ _ _ hki] at hk ⊢
      exact ⟨hk, rfl⟩
  refine ⟨fun k hk hbefore hk' => h.before k hk hbefore (hall k hk').1, fun _ k hk hk' => ?_,
    fun hidle => absurd hidle hc, fun k hk => (hall k hk).2.trans (h.live k (hall k hk).1),
    fun k hk => ?_, hjoined, Or.inr hsettled, fun _ => ⟨hrunning, hsettled⟩⟩
  · rcases hpassed k hk' with hold | hdead
    · exact fun hlive' => h.passed hcancel k hk hold (hall k hlive').1
    · exact hdead
  · have hself := hsettled k
    rw [show s.execute = .spawn k from hk] at hself
    exact absurd hself (Nat.lt_irrefl k)

/-- A step of `cancel` leaves no live thread behind. -/
theorem Resting.cancels (h : s.Resting) (hcancels : Cancels s s') : s'.Resting := by
  have hcancel := hcancels.ne_idle
  cases hcancels with
  | @stop i hpoint _ =>
    refine h.setSlot hcancel (by simp) (fun hlive => ⟨hlive, rfl⟩) (fun k hk => Or.inl ?_)
      fun k hk => by cases hk
    rw [hpoint]
    exact hk
  | @stopped i hpoint hi =>
    obtain ⟨hrunning, hsettled⟩ := h.settled hcancel
    refine ⟨h.before, fun hc => absurd rfl hc, fun _ _ k hk => h.passed hcancel k hk ?_, h.live,
      h.marked, fun k hk => (by cases hk), Or.inr hsettled, fun hc => absurd rfl hc⟩
    rw [hpoint]
    exact Nat.lt_of_lt_of_le hk hi
  | @join i hpoint _ =>
    refine h.setSlot hcancel (by simp) (fun hlive => absurd rfl hlive.1) (fun k hk => Or.inl ?_)
      fun k hk => ?_
    · rw [hpoint]
      exact hk
    · cases hk
      rw [setSlot_slots_self]
      rfl
  | @clear i hpoint =>
    have hthread := h.joined i hpoint
    refine h.setSlot hcancel (by simp) (fun hlive => absurd hthread hlive.1) (fun k hk => ?_)
      fun k hk => by cases hk
    have hlt : k < i + 1 := hk
    by_cases hki : k = i
    · subst hki
      rw [setSlot_slots_self]
      exact Or.inr fun hlive => hlive.1 hthread
    · rw [hpoint]
      exact Or.inl (show k < i by omega)

/-- Every step finds no live thread in a slot that it assigns or starts. -/
theorem Resting.step (h : s.Resting) (hstep : ReadyStep s a s') : s'.Resting := by
  obtain ⟨hstep, hready⟩ := hstep
  cases hstep with
  | submit p _ _ => exact ⟨h.before, h.passed, h.returned, h.live, h.marked, h.joined, h.running,
      h.settled⟩
  | execute hcancel hidle =>
    exact resting_of_begun hcancel rfl (by simp)
      (fun k hk _ => h.returned hcancel (Or.inl hidle) k hk) h.live fun k hk => by cases hk
  | cancel hidle =>
    obtain ⟨hsettled, -⟩ := hready rfl
    exact ⟨h.before, fun _ k _ hk => absurd hk (Nat.not_lt_zero k), fun hc => (by cases hc), h.live,
      h.marked, fun k hk => (by cases hk), Or.inr hsettled, fun _ => ⟨rfl, hsettled⟩⟩
  | executor hs => exact h.executes (executorStep_inv hs)
  | canceller hs => exact h.cancels (cancellerStep_inv hs)
  | @run i fuel read a slot hrun =>
    have hran := Slot.ran_of_runStep hrun
    have hlive := hran.live
    have hrunning := h.live i hlive
    -- the slot was live, so it is none of those that rest
    have hrest : ∀ k, (¬ (s.slots k).Live) → ¬ ((s.setSlot i slot).slots k).Live := by
      intro k hk
      have hki : k ≠ i := fun hki => hk (hki ▸ hlive)
      rwa [setSlot_slots_of_ne _ _ _ hki]
    refine ⟨fun k hk hbefore => hrest k (h.before k hk hbefore),
      fun hc k hk hpassed => hrest k (h.passed hc k hk hpassed),
      fun hc hor k hk => hrest k (h.returned hc hor k hk), fun k hk => ?_, fun k hk => ?_,
      fun k hk => ?_, h.running, h.settled⟩
    · by_cases hki : k = i
      · subst hki
        rw [setSlot_slots_self] at hk ⊢
        rw [hran.running, if_neg hk.2]
        exact hrunning
      · rw [setSlot_slots_of_ne _ _ _ hki] at hk ⊢
        exact h.live k hk
    · obtain ⟨hlt, hmarked⟩ := h.marked k hk
      have hki : k ≠ i := by
        rintro rfl
        refine h.before k hlt ?_ hlive
        rw [show s.execute = .spawn k from hk]
        exact Nat.le_refl k
      exact ⟨hlt, by rwa [setSlot_slots_of_ne _ _ _ hki]⟩
    · have hjoined := h.joined k hk
      have hki : k ≠ i := fun hki => hlive.1 (hki ▸ hjoined)
      rwa [setSlot_slots_of_ne _ _ _ hki]

/-! ## The slots that are stopped -/

/-- A `cancel` has been called, and no `execute` since: the slots it is past do not run. -/
structure Cancelled (s : SlotEngine U) : Prop where
  settled : s.Settled
  stopped : ∀ i < s.slotCount, s.cancel.Passed i → (s.slots i).running = false

/-- A step of `cancel`. -/
theorem Cancelled.cancels (h : s.Cancelled) (hcancels : Cancels s s') : s'.Cancelled := by
  refine ⟨?_, fun j hj hpassed => ?_⟩
  · cases hcancels <;> exact h.settled
  · cases hcancels with
    | @stop i hpoint _ =>
      exact (setSlot_frame s i (s.slots i).stopPipeline Slot.running rfl j).trans
        (h.stopped j hj (by rw [hpoint]; exact hpassed))
    | @stopped i hpoint hi =>
      have hlt : j < i := Nat.lt_of_lt_of_le hj hi
      exact h.stopped j hj (by rw [hpoint]; exact hlt)
    | @join i hpoint _ =>
      exact (setSlot_frame s i (s.slots i).join Slot.running rfl j).trans
        (h.stopped j hj (by rw [hpoint]; exact hpassed))
    | @clear i hpoint =>
      have hlt : j < i + 1 := hpassed
      show ((s.setSlot i _).slots j).running = false
      by_cases hji : j = i
      · subst hji
        rw [setSlot_slots_self]
        rfl
      · rw [setSlot_slots_of_ne _ _ _ hji]
        refine h.stopped j hj ?_
        rw [hpoint]
        show j < i
        omega

/-- Every step but a call of `execute` leaves the stopped slots stopped. -/
theorem Cancelled.step (h : s.Cancelled) (hstep : Step s a s') (ha : a ≠ .execute) :
    s'.Cancelled := by
  cases hstep with
  | submit p _ _ => exact ⟨h.settled, h.stopped⟩
  | execute _ _ => exact absurd rfl ha
  | cancel _ => exact ⟨h.settled, fun i _ hpassed => absurd hpassed (Nat.not_lt_zero i)⟩
  | executor hs =>
    obtain ⟨e, rfl, he⟩ := (executorStep_inv hs).settled h.settled
    exact ⟨he, h.stopped⟩
  | canceller hs => exact h.cancels (cancellerStep_inv hs)
  | @run i fuel read a slot hrun =>
    have hran := Slot.ran_of_runStep hrun
    refine ⟨h.settled, fun j hj hpassed => ?_⟩
    have hstopped := h.stopped j hj hpassed
    by_cases hji : j = i
    · subst hji
      rw [setSlot_slots_self, hran.running, hstopped]
      exact ite_self false
    · rw [setSlot_slots_of_ne _ _ _ hji]
      exact hstopped

/-- When `cancel` has returned no slot runs, until the next `execute`. -/
theorem running_of_cancel (h : Steps ReadyStep s t s') {before after : List (EngineAction U)}
    (ht : t = before ++ .cancel :: after) (hafter : .execute ∉ after) (hidle : s'.cancel = .idle)
    {i : Nat} (hi : i < s'.slotCount) : (s'.slots i).running = false := by
  rw [ht, Steps.append_iff] at h
  obtain ⟨s₁, -, hrest⟩ := h
  obtain ⟨s₂, hcancel, hsteps⟩ := Steps.cons_iff.mp hrest
  have hcancelled : s₂.Cancelled := by
    obtain ⟨hsettled, -⟩ := hcancel.2 rfl
    cases hcancel.1
    exact ⟨hsettled, fun i _ hpassed => absurd hpassed (Nat.not_lt_zero i)⟩
  have hlast := hsteps.invariant_of_notMem (I := Cancelled)
    (fun s a s' hs hstep ha => hs.step hstep.1 ha) hcancelled hafter
  refine hlast.stopped i hi ?_
  rw [hidle]
  trivial

/-- **Cancelling is safe** when it finds the threads started. For a slot, no join throws iff each
`stop` finds the slot started since the last `stop`, and it does not run when `stop` has returned.
For an engine whose `cancel`s find every slot with a joinable thread and no `start_all` going on, no
join throws, `execute` neither assigns to a slot with a live thread nor starts one there, and no
slot runs when `cancel` has returned. -/
theorem cancel_safe (n : Nat) :
    (∀ (t : List (SlotAction U)) (s : ControlledSlot U), Steps ControlledSlot.Step {} t s →
      (ControlledSlot.NoThrow t ↔ ControlledSlot.StartedBeforeStop t) ∧
      ∀ before after : List (SlotAction U), t = before ++ .clear :: after → .start ∉ after →
        s.slot.running = false) ∧
    ∀ (t : List (EngineAction U)) (s : SlotEngine U), Steps ReadyStep { slotCount := n } t s →
      ¬ s.Throws ∧
      (∀ i < n, s.execute = .assign i ∨ s.execute = .spawn i → ¬ (s.slots i).Live) ∧
      ∀ before after : List (EngineAction U), t = before ++ .cancel :: after →
        .execute ∉ after → s.cancel = .idle → ∀ i < n, (s.slots i).running = false := by
  constructor
  · intro t s h
    exact ⟨ControlledSlot.noThrow_iff h, fun before after ht hafter =>
      ControlledSlot.running_of_clear h ht hafter⟩
  · intro t s h
    have hjoining := h.invariant (I := Joining) (fun s a s' hs hstep => hs.step hstep)
      (joining_of_idle rfl)
    have hresting := h.invariant (I := Resting) (fun s a s' hs hstep => hs.step hstep)
      resting_fresh
    have hcount := h.invariant (I := fun s => s.slotCount = n)
      (fun s a s' hs hstep => hstep.1.slotCount.trans hs) rfl
    refine ⟨hjoining.not_throws, fun i hi hpoint => hresting.before i (hcount ▸ hi) ?_,
      fun before after ht hafter hidle i hi => ?_⟩
    · rcases hpoint with hpoint | hpoint <;> rw [hpoint]
      · trivial
      · exact Nat.le_refl i
    · exact running_of_cancel h ht hafter hidle (hcount ▸ hi)

/-- `cancel` goes over the slots whose threads have come to their ends. -/
theorem canceller_throws {i : Nat} (hi : i < s.slotCount) (hnone : (s.slots i).thread = none)
    {k : Nat} (hpoint : s.cancel = .stop (i - k)) (hk : k ≤ i)
    (hbefore : ∀ j < i, i - k ≤ j → (s.slots j).thread = some .finished) :
    ∃ t s', Steps Step s t s' ∧ s'.Throws := by
  induction k generalizing s with
  | zero =>
    have hstep : Step s .canceller
        { s.setSlot i (s.slots i).stopPipeline with cancel := .join i } :=
      .canceller (by simp [cancellerStep, hpoint, hi])
    refine ⟨_, _, .single hstep, i, rfl, ?_⟩
    show ((s.setSlot i _).slots i).thread = none
    rw [setSlot_slots_self]
    exact hnone
  | succ k ih =>
    have hj : i - (k + 1) < i := by omega
    have hnext : i - (k + 1) + 1 = i - k := by omega
    have hfinished := hbefore _ hj (Nat.le_refl _)
    generalize i - (k + 1) = j at *
    let s₁ := { s.setSlot j (s.slots j).stopPipeline with cancel := .join j }
    let s₂ := { s₁.setSlot j (s₁.slots j).join with cancel := .clear j }
    let s₃ := { s₂.setSlot j (s₂.slots j).clear with cancel := .stop (j + 1) }
    have hstop : Step s .canceller s₁ :=
      .canceller (by simp [cancellerStep, hpoint, Nat.lt_trans hj hi, s₁])
    have hthread : (s₁.slots j).thread = some .finished := by
      show ((s.setSlot j _).slots j).thread = _
      rw [setSlot_slots_self]
      exact hfinished
    have hjoin : Step s₁ .canceller s₂ := .canceller (by
      show (if _ then _ else _) = _
      exact if_pos hthread)
    have hclear : Step s₂ .canceller s₃ := .canceller rfl
    have hsame : ∀ {m}, m ≠ j → s₃.slots m = s.slots m := by
      intro m hm
      show ((s₂.setSlot j _).slots m) = _
      rw [setSlot_slots_of_ne _ _ _ hm]
      show ((s₁.setSlot j _).slots m) = _
      rw [setSlot_slots_of_ne _ _ _ hm]
      exact setSlot_slots_of_ne _ _ _ hm
    obtain ⟨t, s', hsteps, hthrows⟩ := @ih s₃ hi (by rw [hsame (by omega)]; exact hnone)
      (congrArg CancelPoint.stop hnext) (by omega) (fun m hm hle => by
        rw [hsame (by omega)]
        exact hbefore m hm (by omega))
    exact ⟨_, s', .cons hstop (.cons hjoin (.cons hclear hsteps)), hthrows⟩

/-- A `cancel` that finds a slot without a thread throws: before the first `execute`, and after
a `cancel`. -/
theorem cancel_throws {i : Nat} (hidle : s.cancel = .idle) (hi : i < s.slotCount)
    (hnone : (s.slots i).thread = none) (hbefore : ∀ j < i, (s.slots j).thread = some .finished) :
    ∃ t s', Steps Step s (.cancel :: t) s' ∧ s'.Throws := by
  have hcancel : Step s .cancel { s with running := false, cancel := .stop 0 } := .cancel hidle
  obtain ⟨t, s', hsteps, hthrows⟩ := @canceller_throws U
    { s with running := false, cancel := .stop 0 } i hi hnone i
    (by rw [Nat.sub_self]) (Nat.le_refl i) (fun j hj _ => hbefore j hj)
  exact ⟨t, s', .cons hcancel hsteps, hthrows⟩

/-- A `cancel` that comes while the pipeline runs. -/
theorem cancel_safe_brief : ∃ (before after : List (EngineAction Unit)) (s : SlotEngine Unit),
    Steps ReadyStep { slotCount := 1 } (before ++ .cancel :: after) s ∧
    .run 0 (.test true) ∈ before ∧ .run 0 .execute ∈ after ∧ s.cancel = .idle ∧ ¬ s.Throws ∧
    (s.slots 0).running = false := by
  have hrun : ∃ s₁ s₂ s₃ : SlotEngine Unit, Steps Step { slotCount := 1 } [.submit brief, .execute,
      .executor, .executor, .executor, .executor, .executor, .run 0 .begin, .run 0 (.test true)]
      s₁ ∧ s₁.Ready ∧ Step s₁ .cancel s₂ ∧ Steps Step s₂ [.canceller, .run 0 .execute,
        .run 0 .close, .run 0 (.leave 0), .canceller, .canceller, .canceller] s₃ ∧
        s₃.cancel = .idle := by
    refine ⟨_, _, _, .cons (.submit brief rfl (by simp)) (.cons (.execute rfl rfl)
      (.cons (.executor rfl) (.cons (.executor rfl) (.cons (.executor rfl) (.cons (.executor rfl)
      (.cons (.executor rfl) (.cons (@Step.run Unit _ 0 1 none _ _ rfl)
      (.single (@Step.run Unit _ 0 1 none _ _ rfl))))))))), ⟨fun i => trivial, fun i hi => ?_⟩,
      .cancel rfl, .cons (.canceller rfl) (.cons (@Step.run Unit _ 0 1 none _ _ rfl)
      (.cons (@Step.run Unit _ 0 1 none _ _ rfl) (.cons (@Step.run Unit _ 0 1 none _ _ rfl)
      (.cons (.canceller rfl) (.cons (.canceller rfl) (.single (.canceller rfl))))))), rfl⟩
    obtain rfl : i = 0 := Nat.lt_one_iff.mp hi
    exact Option.some_ne_none _
  obtain ⟨s₁, s₂, s₃, hbefore, hready, hcancel, hafter, hidle⟩ := hrun
  have hsteps := (readySteps hbefore (by simp)).append
    (.cons ⟨hcancel, fun _ => hready⟩ (readySteps hafter (by simp)))
  obtain ⟨hthrows, -, hstopped⟩ := (cancel_safe 1).2 _ s₃ hsteps
  exact ⟨_, _, s₃, hsteps, by simp, by simp, hidle, hthrows,
    hstopped _ _ rfl (by simp) hidle 0 Nat.one_pos⟩

/-- A `cancel` before `execute` throws. -/
theorem cancel_throws_brief : ¬ ∀ (n : Nat) (t : List (EngineAction Unit)) (s : SlotEngine Unit),
    Steps Step { slotCount := n } t s → ¬ s.Throws := by
  intro h
  have hsteps : ∃ s : SlotEngine Unit, Steps Step { slotCount := 1 } [.submit brief, .cancel,
      .canceller] s ∧ s.Throws :=
    ⟨_, .cons (.submit brief rfl (by simp)) (.cons (.cancel rfl) (.single (.canceller rfl))), 0,
      rfl, rfl⟩
  obtain ⟨s, hsteps, hthrows⟩ := hsteps
  exact h 1 _ s hsteps hthrows

end SlotEngine

end Xtream
