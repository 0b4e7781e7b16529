import Xtream.Engine.SlotRuns

/-!
# What becomes of the submitted pipelines

`execute` starts every slot, but moves only the first pipelines into the slots: a slot without a
pipeline has nothing to run, and a pipeline without a slot is never run. The pipelines stay in the
vector with their roots moved away, so the next `execute` gives the slots pipelines without roots.

* `Phase`: what a run without a `cancel` looks like, by the number of its calls of `execute`;
* `no_missing_pipeline_iff`: when every thread that is started has a pipeline with a root;
* `run_once_iff`: when every submitted pipeline is run.
-/

namespace Xtream

open KahnNetwork (Steps)

namespace EngineAction

variable {U : Type}

def isExecute : EngineAction U → Bool
  | execute => true
  | _ => false

/-- This pipeline has been run to its end. -/
def isLeave (k : Nat) : EngineAction U → Bool
  | run _ (.leave m) => m == k
  | _ => false

end EngineAction

namespace SlotEngine

variable {U : Type} {n : Nat} {s s' s₀ : SlotEngine U} {t : List (EngineAction U)}

/-- The calls of `execute`. -/
def executes (t : List (EngineAction U)) : Nat := t.countP EngineAction.isExecute

/-- The pipelines submitted before the first call of `execute`. -/
def submitted : List (EngineAction U) → List (Pipeline U)
  | [] => []
  | .submit p :: t => p :: submitted t
  | .execute :: _ => []
  | _ :: t => submitted t

/-- The engine with these pipelines submitted. -/
def loaded (n : Nat) (ps : List (Pipeline U)) : SlotEngine U :=
  { slotCount := n, pipelines := ps.mapIdx fun i p => { p with number := i } }

theorem executes_append (t t' : List (EngineAction U)) :
    executes (t ++ t') = executes t + executes t' := List.countP_append

theorem submitted_append {t : List (EngineAction U)} (h : executes t = 0)
    (t' : List (EngineAction U)) : submitted (t ++ t') = submitted t ++ submitted t' := by
  induction t with
  | nil => rfl
  | cons a t ih =>
    rw [executes, List.countP_eq_zero, List.forall_mem_cons] at h
    have ht : executes t = 0 := List.countP_eq_zero.mpr h.2
    cases a with
    | execute => exact absurd rfl h.1
    | submit p => exact congrArg (p :: ·) (ih ht)
    | _ => exact ih ht

theorem submitted_append_of_pos {t : List (EngineAction U)} (h : executes t ≠ 0)
    (t' : List (EngineAction U)) : submitted (t ++ t') = submitted t := by
  induction t with
  | nil => exact absurd rfl h
  | cons a t ih =>
    cases a with
    | execute => rfl
    | submit p => exact congrArg (p :: ·) (ih h)
    | _ => exact ih h

theorem submitted_map (ps : List (Pipeline U)) : submitted (ps.map .submit) = ps := by
  induction ps with
  | nil => rfl
  | cons p ps ih => exact congrArg (p :: ·) ih

theorem executes_map (ps : List (Pipeline U)) :
    executes (ps.map .submit : List (EngineAction U)) = 0 := by
  rw [executes, List.countP_map, List.countP_eq_zero]
  exact fun p _ => Bool.false_ne_true

theorem calm_loaded (n : Nat) (ps : List (Pipeline U)) : (loaded n ps).Calm :=
  ⟨rfl, rfl, fun _ => ⟨fun h => h.1 rfl, rfl⟩, fun _ _ => rfl⟩

theorem supply_loaded (n : Nat) (ps : List (Pipeline U)) (i : Nat) :
    (loaded n ps).supply i = ps[i]?.map fun p => (i, p.root.isEmpty) := by
  unfold supply loaded
  rw [List.getElem?_mapIdx]
  cases ps[i]? <;> rfl

/-! ## The runs without a `cancel` -/

/-- `execute` has returned: the roots of the pipelines have been moved away. -/
structure Spent (s : SlotEngine U) : Prop where
  calm : s.Calm
  length : s.slotCount ≤ s.pipelines.length
  roots : ∀ i < s.slotCount, ∀ p, s.pipelines[i]? = some p → p.root = []

theorem Spent.supply (h : s.Spent) {i : Nat} (hi : i < s.slotCount) :
    ∃ k, s.supply i = some (k, true) := by
  obtain ⟨p, hp⟩ : ∃ p, s.pipelines[i]? = some p :=
    ⟨_, List.getElem?_eq_getElem (Nat.lt_of_lt_of_le hi h.length)⟩
  refine ⟨p.number, ?_⟩
  rw [SlotEngine.supply, hp]
  simp [Pipeline.tag, h.roots i hi p hp]

/-- When `execute` has returned every slot had a pipeline. -/
theorem During.spent (h : During s₀ s) (hidle : s.execute = .idle)
    (hsupply : ∀ i < s₀.slotCount, s₀.supply i ≠ none → i < s₀.pipelines.length) : s.Spent := by
  have hfinished : ∀ i < s₀.slotCount, (s.slots i).thread = some .finished :=
    fun i hi => h.polled i hi (by rw [hidle]; trivial)
  have hspawned : ∀ i, s.execute.Spawned i := fun i => by rw [hidle]; trivial
  have hlen : ∀ i < s₀.slotCount, i < s₀.pipelines.length := by
    intro i hi
    refine hsupply i hi fun hnone => ?_
    have htag := h.tag i hi (hspawned i).assigned
    obtain ⟨-, -, hpipeline⟩ := h.spawned i hi (hspawned i)
    rw [hnone, Slot.tag, Option.map_eq_none_iff] at htag
    exact hpipeline (by simp [hfinished i hi]) htag
  refine ⟨⟨hidle, h.cancel, fun i => ?_, fun i hi => ?_⟩, ?_, fun i hi p hp => ?_⟩
  · by_cases hi : i < s₀.slotCount
    · obtain ⟨-, hrunning, -⟩ := h.spawned i hi (hspawned i)
      refine ⟨fun hlive => hlive.2 (hfinished i hi), ?_⟩
      rw [Bool.eq_false_iff]
      exact fun hr => hrunning.mp hr (hfinished i hi)
    · obtain ⟨hthread, hrunning⟩ := h.outside i (Nat.not_lt.mp hi)
      exact ⟨fun hlive => hlive.1 hthread, hrunning⟩
  · exact (h.outside i (h.slotCount ▸ hi)).1
  · rw [h.slotCount]
    by_contra hcon
    have hlt := hlen s.pipelines.length (Nat.not_le.mp hcon)
    obtain ⟨q, hq, -⟩ := h.pipelines _ _ (List.getElem?_eq_getElem hlt)
    exact Nat.lt_irrefl _ (List.getElem?_eq_some_iff.mp hq).1
  · rw [h.slotCount] at hi
    obtain ⟨q, hq, hmoved, -⟩ := h.pipelines i _ (List.getElem?_eq_getElem (hlen i hi))
    obtain rfl := Option.some.inj (hp.symm.trans hq)
    rw [hmoved hi (hspawned i).assigned]
    rfl

/-- A run without a `cancel`: no `execute` yet, the first one, or a later one. -/
def Phase (n : Nat) (t : List (EngineAction U)) (s : SlotEngine U) : Prop :=
  (executes t = 0 ∧ s = loaded n (submitted t)) ∨
    (executes t = 1 ∧ During (loaded n (submitted t)) s) ∨
    (2 ≤ executes t ∧ ∃ s₀, s₀.slotCount = n ∧ s₀.Spent ∧ During s₀ s)

theorem executes_snoc {a : EngineAction U} (ha : a ≠ .execute) :
    executes (t ++ [a]) = executes t := by
  cases a with
  | execute => exact absurd rfl ha
  | _ => exact executes_append t _

theorem loaded_supply_ne (n : Nat) (ps : List (Pipeline U)) {i : Nat}
    (h : (loaded n ps).supply i ≠ none) : i < (loaded n ps).pipelines.length := by
  rw [supply_loaded, Ne, Option.map_eq_none_iff, List.getElem?_eq_none_iff, Nat.not_le] at h
  simpa [loaded] using h

theorem Spent.during (h : s.Spent) :
    During s { s with running := true, execute := .assign 0 } := h.calm.during

/-- A step of a run without a `cancel`. -/
theorem Phase.step (h : Phase n t s) {a : EngineAction U} (hstep : Step s a s')
    (hcancel : a ≠ .cancel) : Phase n (t ++ [a]) s' := by
  rcases h with ⟨ht, rfl⟩ | ⟨ht, hduring⟩ | ⟨ht, s₀, hcount, hspent, hduring⟩
  · cases hstep with
    | submit p _ _ =>
      refine Or.inl ⟨(executes_append t _).trans ht, ?_⟩
      rw [submitted_append ht]
      simp [loaded, SlotEngine.submit, submitted, List.mapIdx_concat]
    | execute _ _ =>
      refine Or.inr (Or.inl ⟨(executes_append t _).trans (congrArg (· + 1) ht), ?_⟩)
      rw [submitted_append ht, submitted, List.append_nil]
      exact (calm_loaded n (submitted t)).during
    | cancel _ => exact absurd rfl hcancel
    | executor hs => cases hs
    | canceller hs => cases hs
    | run hrun => cases hrun
  · by_cases ha : a = .execute
    · subst ha
      cases hstep with
      | execute _ hidle =>
        have hspent := hduring.spent hidle fun i _ hi => loaded_supply_ne n _ hi
        refine Or.inr (Or.inr ⟨?_, s, hduring.slotCount, hspent, hspent.during⟩)
        rw [executes_append, ht]
        exact Nat.le_refl 2
    · refine Or.inr (Or.inl ⟨(executes_snoc ha).trans ht, ?_⟩)
      rw [submitted_append_of_pos (by omega)]
      exact hduring.step (calm_loaded n _) hstep ha hcancel
  · refine Or.inr (Or.inr ⟨ht.trans ?_, ?_⟩)
    · rw [executes_append]
      exact Nat.le_add_right _ _
    · by_cases ha : a = .execute
      · subst ha
        cases hstep with
        | execute _ hidle =>
          have hspent' := hduring.spent hidle fun i hi _ => Nat.lt_of_lt_of_le hi hspent.length
          exact ⟨s, hduring.slotCount.trans hcount, hspent', hspent'.during⟩
      · exact ⟨s₀, hcount, hspent, hduring.step hspent.calm hstep ha hcancel⟩

theorem phase (h : Steps Step { slotCount := n } t s) (hcancel : .cancel ∉ t) : Phase n t s := by
  have hinv := @Steps.history _ _ (Step (U := U)) (fun t s => .cancel ∉ t → Phase n t s)
    (fun t s a s' ih hstep ht => by
      rw [List.mem_append, List.mem_singleton, not_or] at ht
      exact (ih ht.1).step hstep (Ne.symm ht.2)) { slotCount := n } s [] t
    (fun _ => Or.inl ⟨rfl, rfl⟩) h
  exact hinv hcancel

/-! ## The threads that are started -/

/-- No slot, no call of `execute`, or a single one with a pipeline with a root for each slot. -/
def Supplied (n : Nat) (t : List (EngineAction U)) : Prop :=
  n = 0 ∨ executes t = 0 ∨ (executes t = 1 ∧ n ≤ (submitted t).length ∧
    ∀ p ∈ (submitted t).take n, p.root ≠ [])

/-- `start_all` is not going on. -/
def Settled (s : SlotEngine U) : Prop := ∀ i, s.execute.Spawned i

/-- Every thread that has been started has a pipeline with a root. -/
def Sound (s : SlotEngine U) : Prop := ∀ i, (s.slots i).thread ≠ none → (s.slots i).Rooted

theorem Sound.not_nullDeref (h : s.Sound) (i : Nat) : ¬ (s.slots i).NullDeref := by
  rintro (⟨hthread, hnone⟩ | ⟨hthread, p, hp, hroot⟩)
  · obtain ⟨q, hq, -⟩ := h i (by simp [hthread])
    cases hnone.symm.trans hq
  · obtain ⟨q, hq, hne⟩ := h i (by simp [hthread])
    rw [hp] at hq
    cases hq
    exact hne hroot

/-- A thread started by `execute` has the pipeline supplied for its slot. -/
theorem During.rooted_iff (h : During s₀ s) {i : Nat} (hi : i < s₀.slotCount)
    (hspawned : s.execute.Spawned i) :
    (s.slots i).Rooted ↔ ∃ k, s₀.supply i = some (k, false) := by
  rw [Slot.rooted_iff, h.tag i hi hspawned.assigned]

theorem During.sound (h : During s₀ s) (hfresh : ∀ i, (s₀.slots i).thread = none)
    (hsupply : ∀ i < s₀.slotCount, ∃ k, s₀.supply i = some (k, false)) : s.Sound := by
  intro i hthread
  have hi : i < s₀.slotCount := by
    by_contra hi
    exact hthread (h.outside i (Nat.not_lt.mp hi)).1
  have hspawned : s.execute.Spawned i := by
    by_contra hnot
    exact hthread ((h.waiting i hi hnot).1.trans (hfresh i))
  exact (h.rooted_iff hi hspawned).mpr (hsupply i hi)

theorem During.supplied (h : During s₀ s) (hsettled : s.Settled) (hsound : s.Sound) {i : Nat}
    (hi : i < s₀.slotCount) : ∃ k, s₀.supply i = some (k, false) :=
  (h.rooted_iff hi (hsettled i)).mp (hsound i (h.spawned i hi (hsettled i)).1)

/-- The pipelines submitted before the first `execute` supply every slot. -/
theorem supplied_loaded {ps : List (Pipeline U)} :
    (∀ i < n, ∃ k, (loaded n ps).supply i = some (k, false)) ↔
      n ≤ ps.length ∧ ∀ p ∈ ps.take n, p.root ≠ [] := by
  simp only [supply_loaded]
  constructor
  · intro h
    have hget : ∀ i < n, ∃ p, ps[i]? = some p ∧ p.root ≠ [] := by
      intro i hi
      obtain ⟨k, hk⟩ := h i hi
      obtain ⟨p, hp, heq⟩ := Option.map_eq_some_iff.mp hk
      exact ⟨p, hp, by simpa using (Prod.ext_iff.mp heq).2⟩
    constructor
    · by_contra hcon
      obtain ⟨p, hp, -⟩ := hget ps.length (Nat.not_le.mp hcon)
      exact Nat.lt_irrefl _ (List.getElem?_eq_some_iff.mp hp).1
    · intro p hp
      obtain ⟨i, hi, rfl⟩ := List.mem_take_iff_getElem.mp hp
      obtain ⟨q, hq, hroot⟩ := hget i (by omega)
      rw [List.getElem?_eq_getElem (by omega)] at hq
      cases hq
      exact hroot
  · rintro ⟨hlen, hroots⟩ i hi
    have hroot := hroots ps[i] (List.mem_take_iff_getElem.mpr ⟨i, by omega, rfl⟩)
    exact ⟨i, by simp [List.getElem?_eq_getElem (Nat.lt_of_lt_of_le hi hlen), hroot]⟩

/-- **Every thread that is started runs a pipeline with a root** iff there is at most one `execute`,
with a pipeline for each slot. -/
theorem no_missing_pipeline_iff (h : Steps Step { slotCount := n } t s) (hcancel : .cancel ∉ t) :
    (Supplied n t → s.Sound ∧ ∀ i, ¬ (s.slots i).NullDeref) ∧
      (s.Settled → s.Sound → Supplied n t) := by
  have hphase := phase h hcancel
  constructor
  · intro hsupplied
    have hsound : s.Sound := by
      rcases hphase with ⟨-, rfl⟩ | ⟨ht, hduring⟩ | ⟨ht, s₀, rfl, -, hduring⟩
      · exact fun i hi => absurd rfl hi
      · refine hduring.sound (fun i => rfl) fun i hi => ?_
        rcases hsupplied with hzero | hzero | ⟨-, hsupplied⟩
        · exact absurd hi (by simp [loaded, hzero])
        · omega
        · exact supplied_loaded.mpr hsupplied i hi
      · -- without slots no thread is started
        have hzero : s₀.slotCount = 0 := by
          rcases hsupplied with hzero | hzero | ⟨hone, -⟩
          · exact hzero
          · omega
          · omega
        exact fun i hi => absurd (hduring.outside i (hzero ▸ Nat.zero_le i)).1 hi
    exact ⟨hsound, hsound.not_nullDeref⟩
  · intro hsettled hsound
    rcases hphase with ⟨ht, -⟩ | ⟨ht, hduring⟩ | ⟨ht, s₀, rfl, hspent, hduring⟩
    · exact Or.inr (Or.inl ht)
    · exact Or.inr (Or.inr ⟨ht, supplied_loaded.mp fun i hi =>
        hduring.supplied hsettled hsound hi⟩)
    · refine Or.inl (Nat.eq_zero_of_not_pos fun hpos => ?_)
      obtain ⟨k, hk⟩ := hduring.supplied hsettled hsound hpos
      obtain ⟨k', hk'⟩ := hspent.supply hpos
      cases hk.symm.trans hk'

/-- A pipeline whose source has no events. -/
def brief : Pipeline Unit where
  root := [.source (.create (fun u => (none, u)) () 0 100), .sink ⟨fun u _ => u, ()⟩]

/-- What the threads do on an engine with one slot. -/
def briefRun : List (EngineAction Unit) :=
  [.executor, .executor, .executor, .executor, .executor, .run 0 .begin, .run 0 (.test true),
    .run 0 .execute, .run 0 .close, .run 0 (.leave 0), .executor, .executor, .executor]

theorem steps_briefRun (ps : List (Pipeline Unit)) : ∃ s : SlotEngine Unit,
    Steps Step { slotCount := 1, pipelines := { brief with number := 0 } :: ps }
      (.execute :: briefRun) s ∧ s.execute = .idle := by
  cases ps <;> exact ⟨_, .cons (.execute rfl rfl) (.cons (.executor rfl) (.cons (.executor rfl)
    (.cons (.executor rfl) (.cons (.executor rfl) (.cons (.executor rfl)
    (.cons (@Step.run Unit _ 0 1 none _ _ rfl) (.cons (@Step.run Unit _ 0 1 none _ _ rfl)
    (.cons (@Step.run Unit _ 0 1 none _ _ rfl) (.cons (@Step.run Unit _ 0 1 none _ _ rfl)
    (.cons (@Step.run Unit _ 0 1 none _ _ rfl) (.cons (.executor rfl) (.cons (.executor rfl)
    (.single (.executor rfl)))))))))))))), rfl⟩

/-- One pipeline and one slot. -/
theorem no_missing_pipeline_iff_brief : ∃ s : SlotEngine Unit,
    Steps Step { slotCount := 1 } (.submit brief :: .execute :: briefRun) s ∧ s.Sound := by
  obtain ⟨s, hsteps, -⟩ := steps_briefRun []
  have hsubmit : Step ({ slotCount := 1 } : SlotEngine Unit) (.submit brief)
      { slotCount := 1, pipelines := [{ brief with number := 0 }] } := .submit brief rfl (by simp)
  have hsteps' := Steps.cons hsubmit hsteps
  refine ⟨s, hsteps', ((no_missing_pipeline_iff hsteps' (by simp [briefRun])).1 ?_).1⟩
  exact Or.inr (Or.inr ⟨rfl, Nat.le_refl 1, by simp [submitted, brief]⟩)

/-- A slot without a pipeline is started: the second of two, with one pipeline. -/
theorem missing_pipeline : ¬ ∀ (n : Nat) (t : List (EngineAction Unit)) (s : SlotEngine Unit),
    Steps Step { slotCount := n } t s → .cancel ∉ t → s.Sound ∧ ∀ i, ¬ (s.slots i).NullDeref := by
  intro h
  have hsteps : ∃ s : SlotEngine Unit, Steps Step { slotCount := 2 } [.submit brief, .execute,
      .executor, .executor, .executor, .executor, .executor, .executor] s ∧
        (s.slots 1).NullDeref :=
    ⟨_, .cons (.submit brief rfl (by simp)) (.cons (.execute rfl rfl) (.cons (.executor rfl)
      (.cons (.executor rfl) (.cons (.executor rfl) (.cons (.executor rfl) (.cons (.executor rfl)
      (.single (.executor rfl)))))))), Or.inl ⟨rfl, rfl⟩⟩
  obtain ⟨s, hsteps, hnull⟩ := hsteps
  exact (h 2 _ s hsteps (by simp)).2 1 hnull

/-! ## The pipelines that are run -/

/-- What the threads do after the call of `execute`. -/
def Works (a : EngineAction U) : Prop := a = .executor ∨ ∃ i r, a = .run i r

/-- The pipelines that have been run: those of the slots whose thread has come to its end. -/
structure Finished (ps : List (Pipeline U)) (rest : List (EngineAction U)) (s : SlotEngine U) :
    Prop where
  during : During (loaded n ps) s
  count : ∀ k, rest.countP (EngineAction.isLeave k) =
    if k < n ∧ (s.slots k).thread = some .finished then 1 else 0

/-- A step of `execute` leaves the threads as they are, or starts one. -/
theorem Executes.thread (h : Executes s s') (k : Nat) : (s'.slots k).thread = (s.slots k).thread ∨
    (s.execute = .spawn k ∧ (s'.slots k).thread = some .call) := by
  cases h with
  | @assign i p _ _ _ =>
    exact Or.inl (setSlot_frame s i ((s.slots i).assign p) Slot.thread rfl k)
  | @mark i _ _ _ => exact Or.inl (setSlot_frame s i (s.slots i).mark Slot.thread rfl k)
  | @spawn i hpoint _ =>
    by_cases hk : k = i
    · subst hk
      refine Or.inr ⟨hpoint, ?_⟩
      show ((s.setSlot k _).slots k).thread = _
      rw [setSlot_slots_self]
      rfl
    · refine Or.inl ?_
      show ((s.setSlot i _).slots k).thread = _
      rw [setSlot_slots_of_ne _ _ _ hk]
  | _ => exact Or.inl rfl

/-- The pipeline in a slot is the one submitted for it. -/
theorem During.number_eq {ps : List (Pipeline U)} (h : During (loaded n ps) s) {i : Nat}
    (hi : i < n) (hspawned : s.execute.Spawned i) {p : Pipeline U}
    (hp : (s.slots i).pipeline = some p) : p.number = i := by
  have htag := h.tag i hi hspawned.assigned
  rw [Slot.tag, hp, supply_loaded] at htag
  obtain ⟨q, -, heq⟩ := Option.map_eq_some_iff.mp htag.symm
  exact (Prod.ext_iff.mp heq).1.symm

theorem Finished.step {ps : List (Pipeline U)} {rest : List (EngineAction U)}
    (h : Finished (n := n) ps rest s) {a : EngineAction U} (hstep : Step s a s') (ha : Works a) :
    Finished (n := n) ps (rest ++ [a]) s' := by
  have hduring := h.during.step (calm_loaded n ps) hstep
    (by rcases ha with rfl | ⟨i, r, rfl⟩ <;> simp) (by rcases ha with rfl | ⟨i, r, rfl⟩ <;> simp)
  refine ⟨hduring, fun k => ?_⟩
  rw [List.countP_append, h.count]
  cases hstep with
  | submit p _ _ => rcases ha with ha | ⟨i, r, ha⟩ <;> cases ha
  | execute _ _ => rcases ha with ha | ⟨i, r, ha⟩ <;> cases ha
  | cancel _ => rcases ha with ha | ⟨i, r, ha⟩ <;> cases ha
  | canceller _ => rcases ha with ha | ⟨i, r, ha⟩ <;> cases ha
  | executor hs =>
    show _ + 0 = _
    rw [Nat.add_zero]
    rcases (executorStep_inv hs).thread k with hthread | ⟨hpoint, hcall⟩
    · rw [hthread]
    · by_cases hk : k < n
      · -- the thread is new
        have hwaiting := h.during.waiting k hk (by simp [hpoint, ExecutePoint.Spawned])
        have hnone : (s.slots k).thread = none := hwaiting.1
        simp [hnone, hcall]
      · simp [hk]
  | @run i fuel read r slot hrun =>
    have hran := Slot.ran_of_runStep hrun
    obtain ⟨point, p, point', p', hthread, hpipeline, hmoves, rfl⟩ := Slot.runStep_inv hrun
    have hi : i < n := by
      by_contra hi
      exact hran.live.1 (h.during.outside i (Nat.not_lt.mp hi)).1
    have hspawned : s.execute.Spawned i := by
      by_contra hnot
      exact hran.live.1 (h.during.waiting i hi hnot).1
    have hnumber := h.during.number_eq hi hspawned hpipeline
    by_cases hk : k = i
    · subst hk
      rw [setSlot_slots_self]
      cases hmoves with
      | leave => simp [hran.live.2, hi, EngineAction.isLeave, hnumber]
      | execute _ _ hpoint =>
        rcases hpoint with rfl | rfl <;> simp [hran.live.2, EngineAction.isLeave]
      | _ => simp [hran.live.2, EngineAction.isLeave]
    · rw [setSlot_slots_of_ne _ _ _ hk]
      cases hmoves with
      | leave => simp [EngineAction.isLeave, hnumber, Ne.symm hk]
      | _ => simp [EngineAction.isLeave]

/-- **Every submitted pipeline is run once**, when `execute` has returned, iff there is a slot for
each. -/
theorem run_once_iff {ps : List (Pipeline U)} {rest : List (EngineAction U)}
    (h : Steps Step { slotCount := n } (ps.map .submit ++ .execute :: rest) s)
    (hrest : ∀ a ∈ rest, Works a) (hidle : s.execute = .idle) :
    (∀ k < ps.length, rest.countP (EngineAction.isLeave k) = 1) ↔ ps.length ≤ n := by
  obtain ⟨s₁, hsubmits, hrun⟩ := Steps.append_iff.mp h
  obtain ⟨s₂, hexecute, hsteps⟩ := Steps.cons_iff.mp hrun
  have hloaded : s₁ = loaded n ps := by
    rcases phase hsubmits (by simp) with ⟨-, hs⟩ | ⟨hone, -⟩ | ⟨htwo, -⟩
    · rwa [submitted_map] at hs
    · rw [executes_map] at hone
      cases hone
    · rw [executes_map] at htwo
      cases htwo
  subst hloaded
  have hstart : Finished (n := n) ps [] s₂ := by
    cases hexecute with
    | execute _ _ =>
      refine ⟨(calm_loaded n ps).during, fun k => ?_⟩
      simp [loaded]
  have hfinished : Finished (n := n) ps rest s := by
    have hinv := @Steps.history _ _ (Step (U := U))
      (fun rest s => (∀ a ∈ rest, Works a) → Finished (n := n) ps rest s)
      (fun rest s a s' ih hstep hall => by
        rw [List.forall_mem_append, List.forall_mem_singleton] at hall
        exact (ih hall.1).step hstep hall.2) s₂ s [] rest (fun _ => hstart) hsteps
    exact hinv hrest
  have hcount : ∀ k, rest.countP (EngineAction.isLeave k) = if k < n then 1 else 0 := by
    intro k
    rw [hfinished.count k]
    by_cases hk : k < n
    · have hthread := hfinished.during.polled k hk (by rw [hidle]; trivial)
      simp [hk, hthread]
    · simp [hk]
  simp only [hcount]
  constructor
  · intro hall
    by_contra hcon
    have hn := hall n (Nat.not_le.mp hcon)
    simp at hn
  · intro hle k hk
    exact if_pos (Nat.lt_of_lt_of_le hk hle)

theorem works_briefRun : ∀ a ∈ briefRun, Works a := by
  simp [briefRun, Works]

/-- Two pipelines on an engine with two slots: the threads start one after the other, and `first`
comes to its end before `second` has passed the test of its loop. -/
def pairRun (first second : Nat) : List (EngineAction Unit) :=
  [.executor, .executor, .executor, .executor, .executor, .executor, .executor, .executor,
    .run 0 .begin, .run 1 .begin, .run first (.test true), .run first .execute, .run first .close,
    .run first (.leave first), .executor, .run second (.test true), .run second .execute,
    .run second .close, .run second (.leave second), .executor, .executor, .executor]

theorem steps_pairRun {first second : Nat} (h : (first, second) ∈ [(0, 1), (1, 0)]) :
    ∃ s : SlotEngine Unit, Steps Step { slotCount := 2 }
      ([brief, brief].map .submit ++ .execute :: pairRun first second) s ∧ s.execute = .idle := by
  have hloaded : Steps Step ({ slotCount := 2 } : SlotEngine Unit) ([brief, brief].map .submit)
      { slotCount := 2, pipelines := [{ brief with number := 0 }, { brief with number := 1 }] } :=
    .cons (.submit brief rfl (by simp)) (.single (.submit brief rfl fun i h => by cases h))
  have hstarted : ∃ s : SlotEngine Unit, Steps Step
      { slotCount := 2, pipelines := [{ brief with number := 0 }, { brief with number := 1 }] }
      (.execute :: pairRun first second) s ∧ s.execute = .idle := by
    rcases List.mem_pair.mp h with heq | heq <;> cases heq <;>
    exact ⟨_, .cons (.execute rfl rfl) (.cons (.executor rfl) (.cons (.executor rfl)
      (.cons (.executor rfl) (.cons (.executor rfl) (.cons (.executor rfl) (.cons (.executor rfl)
      (.cons (.executor rfl) (.cons (.executor rfl) (.cons (@Step.run Unit _ 0 1 none _ _ rfl)
      (.cons (@Step.run Unit _ 1 1 none _ _ rfl) (.cons (@Step.run Unit _ _ 1 none _ _ rfl)
      (.cons (@Step.run Unit _ _ 1 none _ _ rfl) (.cons (@Step.run Unit _ _ 1 none _ _ rfl)
      (.cons (@Step.run Unit _ _ 1 none _ _ rfl) (.cons (.executor rfl)
      (.cons (@Step.run Unit _ _ 1 none _ _ rfl) (.cons (@Step.run Unit _ _ 1 none _ _ rfl)
      (.cons (@Step.run Unit _ _ 1 none _ _ rfl) (.cons (@Step.run Unit _ _ 1 none _ _ rfl)
      (.cons (.executor rfl) (.cons (.executor rfl) (.single (.executor rfl))))))))))))))))))))))),
      rfl⟩
  obtain ⟨s, hsteps, hidle⟩ := hstarted
  exact ⟨s, hloaded.append hsteps, hidle⟩

/-- Two pipelines and two slots, whichever comes to its end first. -/
theorem run_once_iff_brief :
    (∃ s : SlotEngine Unit, Steps Step { slotCount := 2 }
      ([brief, brief].map .submit ++ .execute :: pairRun 0 1) s ∧ s.execute = .idle ∧
      ∀ k < 2, (pairRun 0 1).countP (EngineAction.isLeave k) = 1) ∧
    (∃ s : SlotEngine Unit, Steps Step { slotCount := 2 }
      ([brief, brief].map .submit ++ .execute :: pairRun 1 0) s ∧ s.execute = .idle ∧
      ∀ k < 2, (pairRun 1 0).countP (EngineAction.isLeave k) = 1) := by
  have hworks : ∀ first second, ∀ a ∈ pairRun first second, Works a := by
    simp [pairRun, Works]
  obtain ⟨s, hsteps, hidle⟩ := @steps_pairRun 0 1 (by decide)
  obtain ⟨t, tsteps, tidle⟩ := @steps_pairRun 1 0 (by decide)
  exact ⟨⟨s, hsteps, hidle, (run_once_iff hsteps (hworks 0 1) hidle).mpr (Nat.le_refl 2)⟩,
    ⟨t, tsteps, tidle, (run_once_iff tsteps (hworks 1 0) tidle).mpr (Nat.le_refl 2)⟩⟩

/-- A pipeline without a slot is not run: the second of two, with one slot. -/
theorem run_once_lost : ¬ ∀ (n : Nat) (ps : List (Pipeline Unit)) (rest : List (EngineAction Unit))
    (s : SlotEngine Unit), Steps Step { slotCount := n } (ps.map .submit ++ .execute :: rest) s →
      (∀ a ∈ rest, Works a) → s.execute = .idle →
        ∀ k < ps.length, rest.countP (EngineAction.isLeave k) = 1 := by
  intro h
  obtain ⟨s, hsteps, hidle⟩ := steps_briefRun [{ brief with number := 1 }]
  have hsubmits : Steps Step ({ slotCount := 1 } : SlotEngine Unit) [.submit brief, .submit brief]
      { slotCount := 1, pipelines := [{ brief with number := 0 }, { brief with number := 1 }] } :=
    .cons (.submit brief rfl fun _ => by simp) (.single (.submit brief rfl fun i h => by cases h))
  have hcount := h 1 [brief, brief] briefRun s (hsubmits.append hsteps) works_briefRun hidle 1
    (Nat.lt_succ_self 1)
  exact absurd hcount (by decide)

end SlotEngine

end Xtream
