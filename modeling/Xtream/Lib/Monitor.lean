import Xtream.Lib.KahnNetwork
import Mathlib

/-!
# Monitors

An object behind a mutex and a condition variable. A call takes the lock, waits while its condition
is false, does its work, gives the lock back and then notifies one waiting thread, all of them or
none. A waiting thread gives the lock back as it falls asleep; it may wake up without a
notification, and it tests its condition again when it has the lock.

* `linearizable`: the calls take effect one after the other, each once, between its start and its
  end, and with the result that it returns;
* `Tokens`: the condition of the waiting calls is that there is a token left, and whoever adds one
  notifies a thread;
* `Tokens.asleep_of_stuck`: then a thread sleeps only while its condition is false, or another
  thread can go on.
-/

namespace Monitor

open KahnNetwork

universe u

/-- The threads that a call wakes up at its end. -/
inductive Notify
  | none
  | one
  | all
  deriving DecidableEq, Repr

/-- The calls of an object: the condition that each waits for, what it does under the lock, and the
threads that it notifies. -/
structure Calls (S Op R : Type u) where
  ready : Op → S → Bool
  body : Op → S → R × S
  notify : Op → Notify

/-- Where a thread is in a call. -/
inductive Place (Op R : Type u)
  | idle
  /-- Before the lock. -/
  | entering (op : Op)
  /-- It holds the lock, before the test of the condition. -/
  | testing (op : Op)
  /-- It holds the lock and has found the condition true. -/
  | working (op : Op)
  /-- It holds the lock and has done its work. -/
  | leaving (op : Op) (r : R)
  /-- Before the notification. -/
  | notifying (op : Op) (r : R)
  | asleep (op : Op)

inductive Label (Op R : Type u)
  | call (op : Op)
  | acquire
  | test (ready : Bool)
  | body (op : Op) (r : R)
  | release
  /-- The notification, and the end of the call. -/
  | finish (r : R)
  /-- A thread wakes up without a notification. -/
  | spurious
  deriving DecidableEq

namespace Label

variable {Op R : Type u}

/-- The call that starts. -/
def call? : Label Op R → Option Op
  | call op => some op
  | _ => none

/-- The call that takes effect, with its result. -/
def effect? : Label Op R → Option (Op × R)
  | body op r => some (op, r)
  | _ => none

/-- What the call that ends returns. -/
def finish? : Label Op R → Option R
  | finish r => some r
  | _ => none

end Label

structure State (S Op R T : Type u) where
  shared : S
  lock : Option T
  place : T → Place Op R

variable {S Op R T : Type u}

namespace Place

/-- The thread holds the lock. -/
def holds : Place Op R → Bool
  | testing _ => true
  | working _ => true
  | leaving _ _ => true
  | _ => false

/-- The call that is still to take effect. -/
def todo : Place Op R → Option Op
  | entering op => some op
  | testing op => some op
  | working op => some op
  | asleep op => some op
  | _ => none

/-- The result of a call that has taken effect. -/
def done : Place Op R → Option R
  | leaving _ r => some r
  | notifying _ r => some r
  | _ => none

def isAsleep : Place Op R → Bool
  | asleep _ => true
  | _ => false

/-- A notification. -/
def wake : Place Op R → Place Op R
  | asleep op => entering op
  | p => p

@[simp] theorem wake_holds (p : Place Op R) : p.wake.holds = p.holds := by cases p <;> rfl
@[simp] theorem wake_todo (p : Place Op R) : p.wake.todo = p.todo := by cases p <;> rfl
@[simp] theorem wake_done (p : Place Op R) : p.wake.done = p.done := by cases p <;> rfl
@[simp] theorem wake_isAsleep (p : Place Op R) : p.wake.isAsleep = false := by cases p <;> rfl

theorem wake_eq_working {p : Place Op R} {op : Op} : p.wake = working op ↔ p = working op := by
  cases p <;> simp [wake]

end Place

namespace Calls

variable [DecidableEq T] (m : Calls S Op R)

/-- A thread takes a step. -/
inductive Step : State S Op R T → T × Label Op R → State S Op R T → Prop
  | call {s : State S Op R T} {t : T} (op : Op) : s.place t = .idle →
      Step s (t, .call op) { s with place := Function.update s.place t (.entering op) }
  | acquire {s : State S Op R T} {t : T} {op : Op} : s.place t = .entering op → s.lock = none →
      Step s (t, .acquire)
        { s with lock := some t, place := Function.update s.place t (.testing op) }
  | pass {s : State S Op R T} {t : T} {op : Op} : s.place t = .testing op →
      m.ready op s.shared = true →
      Step s (t, .test true) { s with place := Function.update s.place t (.working op) }
  /-- The wait gives the lock back. -/
  | wait {s : State S Op R T} {t : T} {op : Op} : s.place t = .testing op →
      m.ready op s.shared = false →
      Step s (t, .test false)
        { s with lock := none, place := Function.update s.place t (.asleep op) }
  | body {s : State S Op R T} {t : T} {op : Op} : s.place t = .working op →
      Step s (t, .body op (m.body op s.shared).1)
        { s with
          shared := (m.body op s.shared).2
          place := Function.update s.place t (.leaving op (m.body op s.shared).1) }
  | release {s : State S Op R T} {t : T} {op : Op} {r : R} : s.place t = .leaving op r →
      Step s (t, .release)
        { s with lock := none, place := Function.update s.place t (.notifying op r) }
  | notifyNone {s : State S Op R T} {t : T} {op : Op} {r : R} : s.place t = .notifying op r →
      m.notify op = .none →
      Step s (t, .finish r) { s with place := Function.update s.place t .idle }
  /-- One of the sleeping threads. -/
  | notifyOne {s : State S Op R T} {t u : T} {op op' : Op} {r : R} : s.place t = .notifying op r →
      m.notify op = .one → s.place u = .asleep op' →
      Step s (t, .finish r)
        { s with place := Function.update (Function.update s.place u (.entering op')) t .idle }
  | notifyNobody {s : State S Op R T} {t : T} {op : Op} {r : R} : s.place t = .notifying op r →
      m.notify op = .one → (∀ u, (s.place u).isAsleep = false) →
      Step s (t, .finish r) { s with place := Function.update s.place t .idle }
  | notifyAll {s : State S Op R T} {t : T} {op : Op} {r : R} : s.place t = .notifying op r →
      m.notify op = .all →
      Step s (t, .finish r)
        { s with place := Function.update (fun u => (s.place u).wake) t .idle }
  | spurious {s : State S Op R T} {t : T} {op : Op} : s.place t = .asleep op →
      Step s (t, .spurious) { s with place := Function.update s.place t (.entering op) }

/-- No thread can go on with its call: only new calls and wake-ups without a notification are
possible. -/
def Stuck (s : State S Op R T) : Prop :=
  ∀ t l s', m.Step s (t, l) s' → (∃ op, l = .call op) ∨ l = .spurious

/-- No thread is in a call. -/
def start (s : S) : State S Op R T := ⟨s, none, fun _ => .idle⟩

/-- A call as one atomic step, when its condition is true. -/
def Atomic (s : S) (a : T × Op × R) (s' : S) : Prop :=
  m.ready a.2.1 s = true ∧ m.body a.2.1 s = (a.2.2, s')

end Calls

/-! ## Mutual exclusion -/

/-- The lock is held by the thread that is inside, and a condition that has been found true is still
true. -/
structure Locked (m : Calls S Op R) (s : State S Op R T) : Prop where
  holds : ∀ t, (s.place t).holds = true ↔ s.lock = some t
  ready : ∀ t op, s.place t = .working op → m.ready op s.shared = true

section

variable {m : Calls S Op R} {s s' : State S Op R T} {a : T × Label Op R}

theorem locked_start (m : Calls S Op R) (s : S) : Locked m (Calls.start s : State S Op R T) :=
  ⟨fun t => by simp [Calls.start, Place.holds], fun t op h => by cases h⟩

/-- Only one thread is inside. -/
theorem Locked.unique (h : Locked m s) {t u : T} (ht : (s.place t).holds = true)
    (hu : (s.place u).holds = true) : t = u := by
  rw [h.holds] at ht hu
  exact Option.some.inj (ht.symm.trans hu)

/-- Notified threads do not hold the lock. -/
theorem Locked.woken (h : Locked m s) : Locked m { s with place := fun u => (s.place u).wake } :=
  ⟨fun u => by simpa using h.holds u, fun u op hu => h.ready u op (Place.wake_eq_working.mp hu)⟩

variable [DecidableEq T]

/-- A thread that does not hold the lock moves to a place where it does not hold it either. -/
theorem Locked.outside (h : Locked m s) {t : T} {p : Place Op R}
    (ht : (s.place t).holds = false) (hp : p.holds = false) :
    Locked m { s with place := Function.update s.place t p } := by
  refine ⟨fun u => ?_, fun u op hu => ?_⟩
  · by_cases hut : u = t
    · subst hut
      have := h.holds u
      simp_all
    · simpa [hut] using h.holds u
  · by_cases hut : u = t
    · subst hut
      simp only [Function.update_self] at hu
      simp [hu, Place.holds] at hp
    · simp only [Function.update_of_ne hut] at hu
      exact h.ready u op hu

/-- The holder of the lock gives it back. -/
theorem Locked.giveBack (h : Locked m s) {t : T} {p : Place Op R} (ht : (s.place t).holds = true)
    (hp : p.holds = false) :
    Locked m { s with lock := none, place := Function.update s.place t p } := by
  refine ⟨fun u => ?_, fun u op hu => ?_⟩
  · by_cases hut : u = t
    · subst hut
      simp [hp]
    · simp only [Function.update_of_ne hut, reduceCtorEq, iff_false]
      exact fun hu => hut (h.unique hu ht)
  · by_cases hut : u = t
    · subst hut
      simp only [Function.update_self] at hu
      simp [hu, Place.holds] at hp
    · simp only [Function.update_of_ne hut] at hu
      exact h.ready u op hu

/-- The holder of the lock does something under it. -/
theorem Locked.inside (h : Locked m s) {t : T} {p : Place Op R} {x : S}
    (ht : (s.place t).holds = true) (hp : p.holds = true)
    (hready : ∀ op, p = .working op → m.ready op x = true) :
    Locked m { s with shared := x, place := Function.update s.place t p } := by
  refine ⟨fun u => ?_, fun u op hu => ?_⟩
  · by_cases hut : u = t
    · subst hut
      simp [hp, (h.holds u).mp ht]
    · simpa [hut] using h.holds u
  · by_cases hut : u = t
    · subst hut
      simp only [Function.update_self] at hu
      exact hready op hu
    · simp only [Function.update_of_ne hut] at hu
      exact absurd (h.unique (by rw [hu]; rfl) ht) hut

/-- Every step keeps the mutual exclusion. -/
theorem Locked.step (h : Locked m s) (hstep : m.Step s a s') : Locked m s' := by
  cases hstep with
  | call op ht => exact h.outside (by rw [ht]; rfl) rfl
  | @acquire t op ht hlock =>
    have hnone : ∀ u, (s.place u).holds = false := fun u => by
      have := h.holds u
      rw [hlock] at this
      simpa using this
    refine ⟨fun u => ?_, fun u op' hu => ?_⟩
    · by_cases hut : u = t
      · subst hut
        simp [Place.holds]
      · simp [hut, hnone u, Ne.symm hut]
    · by_cases hut : u = t
      · subst hut
        simp at hu
      · simp only [Function.update_of_ne hut] at hu
        exact h.ready u op' hu
  | pass ht hready =>
    refine h.inside (x := s.shared) (by rw [ht]; rfl) rfl fun op hop => ?_
    cases hop
    exact hready
  | wait ht _ => exact h.giveBack (by rw [ht]; rfl) rfl
  | body ht => exact h.inside (by rw [ht]; rfl) rfl fun op hop => by cases hop
  | release ht => exact h.giveBack (by rw [ht]; rfl) rfl
  | notifyNone ht _ => exact h.outside (by rw [ht]; rfl) rfl
  | @notifyOne t u op op' r ht _ hu =>
    have htu : t ≠ u := by
      rintro rfl
      rw [ht] at hu
      cases hu
    have hwoken : Locked m { s with place := Function.update s.place u (.entering op') } :=
      h.outside (by rw [hu]; rfl) rfl
    exact hwoken.outside (by simp [Function.update_of_ne htu, ht, Place.holds]) rfl
  | notifyNobody ht _ _ => exact h.outside (by rw [ht]; rfl) rfl
  | notifyAll ht _ => exact h.woken.outside (by simp only [ht]; rfl) rfl
  | spurious ht => exact h.outside (by rw [ht]; rfl) rfl

/-- When no thread can go on, each is in no call or asleep. -/
theorem Locked.quiet_of_stuck (h : Locked m s) (hstuck : m.Stuck s) (t : T) :
    s.place t = .idle ∨ ∃ op, s.place t = .asleep op := by
  have hmove : ∀ {u l s'}, m.Step s (u, l) s' → (∀ op, l ≠ .call op) → l ≠ .spurious → False :=
    fun hstep hcall hspurious => (hstuck _ _ _ hstep).elim (fun ⟨op, hop⟩ => hcall op hop) hspurious
  -- the holder of the lock goes on
  have hfree : ∀ u, (s.place u).holds = false := fun u => by
    cases hu : s.place u with
    | testing op =>
      cases hready : m.ready op s.shared with
      | true => exact (hmove (.pass hu hready) (by simp) (by simp)).elim
      | false => exact (hmove (.wait hu hready) (by simp) (by simp)).elim
    | working op => exact (hmove (.body hu) (by simp) (by simp)).elim
    | leaving op r => exact (hmove (.release hu) (by simp) (by simp)).elim
    | _ => rfl
  cases ht : s.place t with
  | idle => exact Or.inl rfl
  | asleep op => exact Or.inr ⟨op, rfl⟩
  | entering op =>
    have hlock : s.lock = none := by
      cases hl : s.lock with
      | none => rfl
      | some u =>
        have hu := (h.holds u).mpr hl
        rw [hfree u] at hu
        cases hu
    exact (hmove (.acquire ht hlock) (by simp) (by simp)).elim
  | notifying op r =>
    cases hnotify : m.notify op with
    | none => exact (hmove (.notifyNone ht hnotify) (by simp) (by simp)).elim
    | all => exact (hmove (.notifyAll ht hnotify) (by simp) (by simp)).elim
    | one =>
      by_cases hasleep : ∃ u op', s.place u = .asleep op'
      · obtain ⟨u, op', hu⟩ := hasleep
        exact (hmove (.notifyOne ht hnotify hu) (by simp) (by simp)).elim
      · refine (hmove (.notifyNobody ht hnotify fun u => ?_) (by simp) (by simp)).elim
        cases hu : s.place u with
        | asleep op' => exact absurd ⟨u, op', hu⟩ hasleep
        | _ => rfl
  | testing op =>
    have := hfree t
    rw [ht] at this
    cases this
  | working op =>
    have := hfree t
    rw [ht] at this
    cases this
  | leaving op r =>
    have := hfree t
    rw [ht] at this
    cases this

end

/-! ## The calls take effect one after the other -/

/-- The effects, in order: the thread, the call and its result. -/
def effects (as : List (T × Label Op R)) : List (T × Op × R) :=
  as.filterMap fun a => a.2.effect?.map (a.1, ·)

/-- The steps of one thread. -/
def stepsOf [DecidableEq T] (t : T) (as : List (T × Label Op R)) : List (Label Op R) :=
  (as.filter fun a => a.1 = t).map Prod.snd

/-- The effects of one thread. -/
theorem effects_stepsOf [DecidableEq T] (t : T) (as : List (T × Label Op R)) :
    ((effects as).filter fun x => x.1 = t).map Prod.snd =
      (stepsOf t as).filterMap Label.effect? := by
  induction as with
  | nil => rfl
  | cons a as ih =>
    unfold effects stepsOf at ih ⊢
    rw [List.filterMap_cons, List.filter_cons]
    by_cases hat : a.1 = t
    · cases heffect : a.2.effect? <;> simp [hat, heffect, ih]
    · cases heffect : a.2.effect? <;> simp [hat, ih]

/-- What a thread at a place has started, done and returned. -/
structure Orderly (ls : List (Label Op R)) (p : Place Op R) : Prop where
  started : ls.filterMap Label.call? = (ls.filterMap Label.effect?).map Prod.fst ++ p.todo.toList
  returned : (ls.filterMap Label.effect?).map Prod.snd = ls.filterMap Label.finish? ++ p.done.toList

section

variable {ls : List (Label Op R)} {p p' : Place Op R} {op : Op} {r : R}

theorem Orderly.congr (h : Orderly ls p) (htodo : p'.todo = p.todo) (hdone : p'.done = p.done) :
    Orderly ls p' := ⟨by rw [htodo, h.started], by rw [hdone, h.returned]⟩

/-- A step that neither starts nor does nor returns anything. -/
theorem Orderly.silent (h : Orderly ls p) {l : Label Op R} (hcall : l.call? = none)
    (heffect : l.effect? = none) (hfinish : l.finish? = none) (htodo : p'.todo = p.todo)
    (hdone : p'.done = p.done) : Orderly (ls ++ [l]) p' := by
  refine Orderly.congr ?_ htodo hdone
  constructor
  · simp [hcall, heffect, h.started]
  · simp [hfinish, heffect, h.returned]

theorem Orderly.call (h : Orderly ls (.idle : Place Op R)) (op : Op) :
    Orderly (ls ++ [.call op]) (.entering op) := by
  constructor
  · simp [h.started, List.filterMap_cons, Label.call?, Label.effect?, Place.todo]
  · simp [h.returned, List.filterMap_cons, Label.effect?, Label.finish?, Place.done]

theorem Orderly.body (h : Orderly ls (.working op : Place Op R)) (r : R) :
    Orderly (ls ++ [.body op r]) (.leaving op r) := by
  constructor
  · simp [h.started, List.filterMap_cons, Label.call?, Label.effect?, Place.todo]
  · simp [h.returned, List.filterMap_cons, Label.effect?, Label.finish?, Place.done]

theorem Orderly.finish (h : Orderly ls (.notifying op r)) :
    Orderly (ls ++ [.finish r]) (.idle : Place Op R) := by
  constructor
  · simp [h.started, List.filterMap_cons, Label.call?, Label.effect?, Place.todo]
  · simp [h.returned, List.filterMap_cons, Label.effect?, Label.finish?, Place.done]

end

section

variable [DecidableEq T] {m : Calls S Op R} {s s' : State S Op R T} {a : T × Label Op R}
  {as : List (T × Label Op R)}

/-- The step of a thread, with the places of the others, which may wake up. -/
theorem orderly_update {place place' : T → Place Op R} {t : T} {l : Label Op R} {p : Place Op R}
    (h : ∀ u, Orderly (stepsOf u as) (place u))
    (hplace : ∀ u, u ≠ t → place' u = place u ∨ place' u = (place u).wake)
    (ht : Orderly (stepsOf t as ++ [l]) p) (u : T) :
    Orderly (stepsOf u (as ++ [(t, l)])) (Function.update place' t p u) := by
  by_cases hut : u = t
  · subst hut
    simpa [stepsOf] using ht
  · have hskip : stepsOf u (as ++ [(t, l)]) = stepsOf u as := by
      simp [stepsOf, Ne.symm hut]
    rw [hskip, Function.update_of_ne hut]
    rcases hplace u hut with hu | hu
    · exact (h u).congr (by rw [hu]) (by rw [hu])
    · exact (h u).congr (by simp [hu]) (by simp [hu])

/-- Every step keeps the order of the calls of each thread. -/
theorem orderly_step (h : ∀ u, Orderly (stepsOf u as) (s.place u)) (hstep : m.Step s a s') (u : T) :
    Orderly (stepsOf u (as ++ [a])) (s'.place u) := by
  have same : ∀ t u, u ≠ t → s.place u = s.place u ∨ s.place u = (s.place u).wake :=
    fun _ _ _ => Or.inl rfl
  -- the steps with which a thread goes on with its call
  have move : ∀ {t : T} {l : Label Op R} {p : Place Op R}, l.call? = none → l.effect? = none →
      l.finish? = none → p.todo = (s.place t).todo → p.done = (s.place t).done →
      Orderly (stepsOf u (as ++ [(t, l)])) (Function.update s.place t p u) :=
    fun hcall heffect hfinish htodo hdone =>
      orderly_update h (same _) ((h _).silent hcall heffect hfinish htodo hdone) u
  cases hstep with
  | @call t op ht => exact orderly_update h (same t) ((ht ▸ h t).call op) u
  | acquire ht _ => exact move rfl rfl rfl (by rw [ht]; rfl) (by rw [ht]; rfl)
  | pass ht _ => exact move rfl rfl rfl (by rw [ht]; rfl) (by rw [ht]; rfl)
  | wait ht _ => exact move rfl rfl rfl (by rw [ht]; rfl) (by rw [ht]; rfl)
  | @body t op ht => exact orderly_update h (same t) ((ht ▸ h t).body _) u
  | release ht => exact move rfl rfl rfl (by rw [ht]; rfl) (by rw [ht]; rfl)
  | @notifyNone t op r ht _ => exact orderly_update h (same t) (ht ▸ h t).finish u
  | @notifyOne t v op op' r ht _ hv =>
    refine orderly_update h (fun w _ => ?_) (ht ▸ h t).finish u
    by_cases hwv : w = v
    · subst hwv
      exact Or.inr (by simp [hv, Place.wake])
    · exact Or.inl (Function.update_of_ne hwv _ _)
  | @notifyNobody t op r ht _ _ => exact orderly_update h (same t) (ht ▸ h t).finish u
  | @notifyAll t op r ht _ => exact orderly_update h (fun _ _ => Or.inr rfl) (ht ▸ h t).finish u
  | spurious ht => exact move rfl rfl rfl (by rw [ht]; rfl) (by rw [ht]; rfl)

/-- What a step does to the object: nothing, or the call of the thread as one atomic step. -/
theorem Locked.effect (h : Locked m s) (hstep : m.Step s a s') :
    Steps m.Atomic s.shared (effects [a]) s'.shared := by
  cases hstep with
  | @body t op ht => exact .single ⟨h.ready t op ht, rfl⟩
  | _ => exact .nil _

/-- **The calls take effect one after the other**: every run of the monitor is a run of the object
whose calls are atomic; and each thread has started the calls that have taken effect and at most one
more, and returned their results but at most the last. -/
theorem linearizable {x : S} (h : Steps m.Step (Calls.start x) as s) :
    Steps m.Atomic x (effects as) s.shared ∧ ∀ t, Orderly (stepsOf t as) (s.place t) := by
  have hstart : ∀ t : T, Orderly (stepsOf t []) (.idle : Place Op R) := fun t => ⟨rfl, rfl⟩
  have hrun := @Steps.history _ _ m.Step
    (fun as s => Locked m s ∧ Steps m.Atomic x (effects as) s.shared ∧
      ∀ t, Orderly (stepsOf t as) (s.place t))
    (fun as s a s' hI hstep => ⟨hI.1.step hstep, by
      rw [effects, List.filterMap_append]
      exact hI.2.1.append (hI.1.effect hstep), orderly_step hI.2.2 hstep⟩) _ _ [] _
    ⟨locked_start m x, .nil x, hstart⟩ h
  rw [List.nil_append] at hrun
  exact hrun.2

end

/-! ## Notifications -/

/-- The calls that wait take a token each, and wait while there is none. Whoever adds a token
notifies a thread, and who may add more than one notifies all. -/
structure Tokens (m : Calls S Op R) where
  tokens : S → ℕ∞
  waits : Op → Bool
  ready_iff : ∀ op s, waits op = true → (m.ready op s = true ↔ tokens s ≠ 0)
  ready : ∀ op s, waits op = false → m.ready op s = true
  silent : ∀ op, waits op = true → m.notify op = .none
  take : ∀ op s, waits op = true → m.ready op s = true →
    tokens (m.body op s).2 + 1 ≤ tokens s
  keep : ∀ op s, waits op = false → m.notify op = .none → tokens (m.body op s).2 ≤ tokens s
  add : ∀ op s, m.notify op = .one → tokens (m.body op s).2 ≤ tokens s + 1

/-- A thread that will wake up all others. -/
def Calls.wakesAll (m : Calls S Op R) : Place Op R → Bool
  | .leaving op _ => m.notify op = .all
  | .notifying op _ => m.notify op = .all
  | _ => false

namespace Tokens

variable {m : Calls S Op R} (k : Tokens m)

/-- A thread that will take a token or wake up another one. -/
def weight : Place Op R → Nat
  | .entering op => if k.waits op then 1 else 0
  | .testing op => if k.waits op then 1 else 0
  | .working op => if k.waits op then 1 else 0
  | .leaving op _ => if m.notify op = .one then 1 else 0
  | .notifying op _ => if m.notify op = .one then 1 else 0
  | _ => 0

/-- A thread sleeps only if there are enough threads that will take a token or wake up another one,
or one that will wake up all. -/
def Covered [Fintype T] (x : S) (place : T → Place Op R) : Prop :=
  (∃ u, (place u).isAsleep = true) →
    (∃ u, m.wakesAll (place u) = true) ∨ k.tokens x ≤ (∑ u, k.weight (place u) : ℕ)

variable [DecidableEq T] [Fintype T] {s s' : State S Op R T} {a : T × Label Op R}
  {as : List (T × Label Op R)}

omit [DecidableEq T] in
theorem covered_of_none {x : S} (place : T → Place Op R)
    (h : ∀ u, (place u).isAsleep = false) : k.Covered x place := by
  rintro ⟨u, hu⟩
  rw [h u] at hu
  cases hu

theorem sum_weight_update (place : T → Place Op R) (t : T) (p : Place Op R) :
    (∑ u, k.weight (Function.update place t p u)) + k.weight (place t) =
      (∑ u, k.weight (place u)) + k.weight p := by
  have hupdate : (fun u => k.weight (Function.update place t p u)) =
      Function.update (fun u => k.weight (place u)) t (k.weight p) := by
    funext u
    by_cases hut : u = t
    · subst hut
      simp
    · simp [hut]
  rw [hupdate, Finset.sum_update_of_mem (Finset.mem_univ t),
    ← Finset.sum_sdiff (Finset.subset_univ {t}) (f := fun u => k.weight (place u)),
    Finset.sum_singleton]
  omega

/-- A thread moves and does not fall asleep. -/
theorem Covered.update {x x' : S} {place : T → Place Op R} {t : T} {p : Place Op R}
    (h : k.Covered x place) (hp : p.isAsleep = false)
    (hall : m.wakesAll (place t) = true → m.wakesAll p = true)
    (htokens : k.tokens x' + k.weight (place t) ≤ k.tokens x + k.weight p) :
    k.Covered x' (Function.update place t p) := by
  rintro ⟨u, hu⟩
  have hut : u ≠ t := by
    rintro rfl
    simp [hp] at hu
  rw [Function.update_of_ne hut] at hu
  rcases h ⟨u, hu⟩ with ⟨v, hv⟩ | hle
  · left
    by_cases hvt : v = t
    · subst hvt
      exact ⟨v, by simpa using hall hv⟩
    · exact ⟨v, by simpa [hvt] using hv⟩
  · right
    have hsum := k.sum_weight_update place t p
    have hle' : k.tokens x' + k.weight (place t) ≤
        ((∑ u, k.weight (Function.update place t p u) : ℕ) : ℕ∞) + k.weight (place t) := by
      calc k.tokens x' + k.weight (place t)
          ≤ k.tokens x + k.weight p := htokens
        _ ≤ ((∑ u, k.weight (place u) : ℕ) : ℕ∞) + k.weight p := by gcongr
        _ = ((∑ u, k.weight (Function.update place t p u) : ℕ) : ℕ∞) + k.weight (place t) := by
            exact_mod_cast hsum.symm
    exact (ENat.add_le_add_iff_right (ENat.natCast_ne_top _)).mp hle'

/-- Threads sleep only in calls that wait. -/
def SleepsWaiting (place : T → Place Op R) : Prop :=
  ∀ u op, place u = .asleep op → k.waits op = true

omit [Fintype T] in
theorem SleepsWaiting.update {place : T → Place Op R} (h : k.SleepsWaiting place) (t : T)
    {p : Place Op R} (hp : ∀ op, p = .asleep op → k.waits op = true) :
    k.SleepsWaiting (Function.update place t p) := by
  intro u op hu
  by_cases hut : u = t
  · subst hut
    exact hp op (by simpa using hu)
  · exact h u op (by simpa [hut] using hu)

omit [Fintype T] in
theorem SleepsWaiting.step (h : k.SleepsWaiting s.place) (hstep : m.Step s a s') :
    k.SleepsWaiting s'.place := by
  cases hstep with
  | @wait t op ht hready =>
    refine SleepsWaiting.update k h t fun op' hop => ?_
    cases hop
    by_contra hwaits
    rw [k.ready op _ (by simpa using hwaits)] at hready
    cases hready
  | notifyOne ht _ hu =>
    exact SleepsWaiting.update k (SleepsWaiting.update k h _ fun _ hop => by cases hop) _
      fun _ hop => by cases hop
  | notifyAll ht _ =>
    refine SleepsWaiting.update k (fun u op hu => ?_) _ fun _ hop => by cases hop
    have hsleeps := Place.wake_isAsleep (s.place u)
    rw [hu] at hsleeps
    cases hsleeps
  | _ => exact SleepsWaiting.update k h _ fun _ hop => by cases hop

/-- The work of a call: a waiting call takes its token, another one notifies for what it adds. -/
theorem tokens_body {op : Op} {x : S} (hready : m.ready op x = true)
    (hall : m.notify op ≠ .all) :
    k.tokens (m.body op x).2 + k.weight (.working op : Place Op R) ≤
      k.tokens x + k.weight (.leaving op (m.body op x).1) := by
  cases hwaits : k.waits op with
  | true => simpa [weight, hwaits, k.silent op hwaits] using k.take op x hwaits hready
  | false =>
    cases hnotify : m.notify op with
    | none => simpa [weight, hwaits, hnotify] using k.keep op x hwaits hnotify
    | one => simpa [weight, hwaits, hnotify] using k.add op x hnotify
    | all => exact absurd hnotify hall

/-- Every step keeps the sleeping threads covered. -/
theorem Covered.step (h : k.Covered s.shared s.place) (hlocked : Locked m s)
    (hsleeps : k.SleepsWaiting s.place) (hstep : m.Step s a s') :
    k.Covered s'.shared s'.place := by
  cases hstep with
  | call op ht =>
    refine Covered.update k h rfl (by simp [ht, Calls.wakesAll]) ?_
    simp [ht, weight]
  | acquire ht _ => exact Covered.update k h rfl (by simp [ht, Calls.wakesAll]) (by rw [ht]; rfl)
  | pass ht _ => exact Covered.update k h rfl (by simp [ht, Calls.wakesAll]) (by rw [ht]; rfl)
  | @wait t op ht hready =>
    have hwaits := SleepsWaiting.step k hsleeps (.wait ht hready) t op (by simp)
    intro _
    right
    have hnone : k.tokens s.shared = 0 := by
      by_contra hne
      rw [(k.ready_iff op _ hwaits).mpr hne] at hready
      cases hready
    simp [hnone]
  | @body t op ht =>
    by_cases hall : m.notify op = .all
    · intro _
      exact Or.inl ⟨t, by simp [Calls.wakesAll, hall]⟩
    · refine Covered.update k h rfl (by simp [ht, Calls.wakesAll]) ?_
      rw [ht]
      exact k.tokens_body (hlocked.ready t op ht) hall
  | release ht => exact Covered.update k h rfl (by rw [ht]; exact id) (by rw [ht]; rfl)
  | notifyNone ht hnotify =>
    refine Covered.update k h rfl (by simp [ht, Calls.wakesAll, hnotify]) ?_
    simp [ht, weight, hnotify]
  | @notifyOne t u op op' r ht hnotify hu =>
    have htu : t ≠ u := by
      rintro rfl
      rw [ht] at hu
      cases hu
    have hwaits := hsleeps u op' hu
    -- the token of the notification goes to the thread that it wakes up
    rintro ⟨v, hv⟩
    have hvt : v ≠ t := by
      rintro rfl
      simp [Place.isAsleep] at hv
    have hvu : v ≠ u := by
      rintro rfl
      simp [hvt, Place.isAsleep] at hv
    simp only [Function.update_of_ne hvt, Function.update_of_ne hvu] at hv
    rcases h ⟨v, hv⟩ with ⟨w, hw⟩ | hle
    · left
      have hwt : w ≠ t := by
        rintro rfl
        simp [ht, Calls.wakesAll, hnotify] at hw
      have hwu : w ≠ u := by
        rintro rfl
        simp [hu, Calls.wakesAll] at hw
      exact ⟨w, by simpa [hwt, hwu] using hw⟩
    · right
      have h₁ := k.sum_weight_update s.place u (.entering op')
      have h₂ := k.sum_weight_update (Function.update s.place u (.entering op')) t .idle
      have ht₁ : k.weight (s.place t) = 1 := by simp [ht, weight, hnotify]
      have hu₀ : k.weight (s.place u) = 0 := by rw [hu]; rfl
      have hu₁ : k.weight (.entering op' : Place Op R) = 1 := by simp [weight, hwaits]
      have ht₀ : k.weight (.idle : Place Op R) = 0 := rfl
      rw [Function.update_of_ne htu, ht₁, ht₀] at h₂
      rw [hu₀, hu₁] at h₁
      have hsum : (∑ v, k.weight (s.place v)) = ∑ v, k.weight
          (Function.update (Function.update s.place u (.entering op')) t .idle v) := by omega
      exact hle.trans (by rw [hsum])
  | @notifyNobody t op r ht _ hnone =>
    refine k.covered_of_none _ fun u => ?_
    by_cases hut : u = t
    · subst hut
      simp [Place.isAsleep]
    · simpa [hut] using hnone u
  | @notifyAll t op r ht _ =>
    refine k.covered_of_none _ fun u => ?_
    by_cases hut : u = t
    · subst hut
      simp [Place.isAsleep]
    · simp [hut]
  | spurious ht =>
    refine Covered.update k h rfl (by simp [ht, Calls.wakesAll]) ?_
    simp [ht, weight]

theorem covered {x : S} (h : Steps m.Step (Calls.start x) as s) :
    Locked m s ∧ k.SleepsWaiting s.place ∧ k.Covered s.shared s.place :=
  Steps.invariant (I := fun s => Locked m s ∧ k.SleepsWaiting s.place ∧ k.Covered s.shared s.place)
    (fun _ _ _ hI hstep => ⟨hI.1.step hstep, SleepsWaiting.step k hI.2.1 hstep,
      Covered.step k hI.2.2 hI.1 hI.2.1 hstep⟩)
    ⟨locked_start m x, fun u op hu => (by cases hu),
      k.covered_of_none (fun _ => .idle) fun _ => rfl⟩ h

/-- No wake-up is lost. When no thread can go on with its call, each is in no call, or it sleeps
and its condition is false. -/
theorem asleep_of_stuck (k : Tokens m) {x : S} (h : Steps m.Step (Calls.start x) as s)
    (hstuck : m.Stuck s) (t : T) :
    s.place t = .idle ∨ ∃ op, s.place t = .asleep op ∧ m.ready op s.shared = false := by
  obtain ⟨hlocked, hsleeps, hcovered⟩ := k.covered h
  have hplace := fun u => hlocked.quiet_of_stuck hstuck u
  rcases hplace t with ht | ⟨op, ht⟩
  · exact Or.inl ht
  · refine Or.inr ⟨op, ht, ?_⟩
    have hzero : ∀ u, k.weight (s.place u) = 0 ∧ m.wakesAll (s.place u) = false := fun u => by
      rcases hplace u with hu | ⟨op', hu⟩ <;> simp [hu, weight, Calls.wakesAll]
    rcases hcovered ⟨t, by rw [ht]; rfl⟩ with ⟨u, hu⟩ | hle
    · rw [(hzero u).2] at hu
      cases hu
    · have hnone : k.tokens s.shared = 0 := by simpa [fun u => (hzero u).1] using hle
      by_contra hready
      exact (k.ready_iff op _ (hsleeps t op ht)).mp (by simpa using hready) hnone

end Tokens

end Monitor
