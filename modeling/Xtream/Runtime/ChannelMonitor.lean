import Xtream.Lib.Monitor
import Xtream.Runtime.ChannelRuns

/-!
# The channel behind its mutex (`src/runtime/input_channel.h`)

`InputChannel` is a monitor: every call takes `mutex_`, `read` waits on `cv_` while the queue is
empty and the channel is open, `write` ends with `notify_one` and `close` with `notify_all`, both
after the lock has been given back. The other modules take the calls of a channel to be atomic;
here they are made of the steps of the mutex and of the condition variable.

* `monitor_run`: any number of threads use the channel as if the calls were atomic, in the order in
  which they have done their work under the lock;
* `no_lost_wakeup`: a `read` is never left asleep when there is an event or the channel is closed.
-/

namespace Xtream

open KahnNetwork (Steps)

/-- A call on a channel. -/
inductive ChannelOp
  | write (e : Event Record)
  | close
  | read
  | isDone
  deriving DecidableEq, Repr

/-- The call that has this result. -/
def ChannelCall.op : ChannelCall → ChannelOp
  | .write e => .write e
  | .close => .close
  | .read _ => .read
  | .isDone _ => .isDone

/-- The event that a call has written. -/
def ChannelCall.written? : ChannelCall → Option (Event Record)
  | .write e => some e
  | _ => none

/-- The event that a call has read. -/
def ChannelCall.read? : ChannelCall → Option (Event Record)
  | .read v => v
  | _ => none

namespace InputChannel

/-- The calls, with the results that they return. -/
def calls : Monitor.Calls InputChannel ChannelOp ChannelCall where
  ready
    | .read, c => !c.queue.isEmpty || c.closed
    | _, _ => true
  body
    | .write e, c => (.write e, c.write e)
    | .close, c => (.close, c.close)
    | .read, c =>
      match c.queue with
      | [] => (.read none, c)
      | e :: queue => (.read (some e), { c with queue })
    | .isDone, c => (.isDone c.isDone, c)
  notify
    | .write _ => .one
    | .close => .all
    | _ => .none

variable {T : Type} {c c' : InputChannel}

/-- The work of a call under the lock is the atomic call. -/
theorem step_of_atomic {t : T} {op : ChannelOp} {r : ChannelCall}
    (h : calls.Atomic c (t, op, r) c') : Step c (t, r) c' ∧ r.op = op := by
  obtain ⟨hready, hbody⟩ := h
  cases op with
  | write e =>
    cases hbody
    exact ⟨.write c t e, rfl⟩
  | close =>
    cases hbody
    exact ⟨.close c t, rfl⟩
  | isDone =>
    cases hbody
    exact ⟨.isDone c t, rfl⟩
  | read =>
    obtain ⟨queue, closed⟩ := c
    cases queue with
    | nil =>
      cases hbody
      have hclosed : closed = true := by simpa [calls] using hready
      exact ⟨.read t (by simp [InputChannel.read, hclosed]), rfl⟩
    | cons e queue =>
      cases hbody
      exact ⟨.read t rfl, rfl⟩

/-- The calls of a run with their results, in the order in which they have taken effect. -/
def history (as : List (T × Monitor.Label ChannelOp ChannelCall)) : List (T × ChannelCall) :=
  (Monitor.effects as).map fun x => (x.1, x.2.2)

theorem steps_of_atomic {xs : List (T × ChannelOp × ChannelCall)}
    (h : Steps calls.Atomic c xs c') :
    Steps Step c (xs.map fun x => (x.1, x.2.2)) c' ∧ ∀ x ∈ xs, x.2.2.op = x.2.1 := by
  induction h with
  | nil c => exact ⟨.nil c, List.forall_mem_nil _⟩
  | cons hstep _ ih =>
    obtain ⟨hfirst, hop⟩ := step_of_atomic hstep
    exact ⟨.cons hfirst ih.1, List.forall_mem_cons.mpr ⟨hop, ih.2⟩⟩

/-- What has been written has been read, in this order, or is in the queue. -/
theorem read_append_queue {xs : List (T × ChannelCall)} (h : Steps Step c xs c') :
    xs.filterMap (fun x => x.2.read?) ++ c'.queue =
      c.queue ++ xs.filterMap fun x => x.2.written? := by
  induction h with
  | nil c => simp
  | @cons c c₁ c₂ a xs hstep _ ih =>
    cases hstep with
    | write t e => simpa [List.filterMap_cons, ChannelCall.read?, ChannelCall.written?,
        InputChannel.write] using ih
    | close t => simpa [List.filterMap_cons, ChannelCall.read?, ChannelCall.written?,
        InputChannel.close] using ih
    | isDone t => simpa [List.filterMap_cons, ChannelCall.read?, ChannelCall.written?] using ih
    | @read _ t v hread =>
      cases v with
      | none =>
        obtain ⟨-, -, rfl⟩ := read_none hread
        simpa [List.filterMap_cons, ChannelCall.read?, ChannelCall.written?] using ih
      | some e =>
        obtain ⟨queue, closed⟩ := c
        cases queue with
        | nil =>
          unfold InputChannel.read at hread
          split at hread
          · rename_i hq
            cases hq
          · split at hread <;> cases hread
        | cons e' queue =>
          cases hread
          simpa [List.filterMap_cons, ChannelCall.read?, ChannelCall.written?] using ih

variable [DecidableEq T] {as : List (T × Monitor.Label ChannelOp ChannelCall)}
  {s : Monitor.State InputChannel ChannelOp ChannelCall T}

/-- **Threads that use the channel's mutex and condition variable** use it as if its calls were
atomic, in the order in which they have done their work under the lock: the channel is what these
calls make of it, the events written have been read in this order or are in the queue, only one
thread holds the lock, and each thread has made the calls that it has started, but at most the last
one, and been given their results, but at most the last one. -/
theorem monitor_run (h : Steps calls.Step (Monitor.Calls.start {}) as s) :
    Steps Step {} (history as) s.shared ∧
      (history as).filterMap (fun x => x.2.read?) ++ s.shared.queue =
        (history as).filterMap (fun x => x.2.written?) ∧
      (∀ t u, (s.place t).holds = true → (s.place u).holds = true → t = u) ∧
      ∀ t, (Monitor.stepsOf t as).filterMap Monitor.Label.call? =
          ((history as).filter fun x => x.1 = t).map (fun x => x.2.op) ++ (s.place t).todo.toList ∧
        ((history as).filter fun x => x.1 = t).map (fun x => x.2) =
          (Monitor.stepsOf t as).filterMap Monitor.Label.finish? ++ (s.place t).done.toList := by
  obtain ⟨hatomic, horderly⟩ := Monitor.linearizable h
  obtain ⟨hsteps, hop⟩ := steps_of_atomic hatomic
  have hlocked := Steps.invariant (fun _ _ _ hI hstep => hI.step hstep)
    (Monitor.locked_start (T := T) calls {}) h
  refine ⟨hsteps, by simpa [history] using read_append_queue hsteps, fun t u => hlocked.unique,
    fun t => ?_⟩
  obtain ⟨hstarted, hreturned⟩ := horderly t
  rw [← Monitor.effects_stepsOf t as] at hstarted hreturned
  have hof : (history as).filter (fun x => x.1 = t) =
      ((Monitor.effects as).filter fun x => x.1 = t).map fun x => (x.1, x.2.2) := by
    rw [history, List.filter_map]
    rfl
  rw [hof]
  constructor
  · rw [hstarted, List.map_map, List.map_map]
    congr 1
    refine List.map_congr_left fun x hx => ?_
    exact (hop x (List.mem_of_mem_filter hx)).symm
  · rw [← hreturned, List.map_map, List.map_map]
    rfl

/-- `true` reads and falls asleep, `false` writes and wakes it up. -/
def handOff : List (Bool × Monitor.Label ChannelOp ChannelCall) :=
  [(true, .call .read), (true, .acquire), (true, .test false),
    (false, .call (.write (eventAt 5))), (false, .acquire), (false, .test true),
    (false, .body (.write (eventAt 5)) (.write (eventAt 5))), (false, .release),
    (false, .finish (.write (eventAt 5))),
    (true, .acquire), (true, .test true), (true, .body .read (.read (some (eventAt 5)))),
    (true, .release), (true, .finish (.read (some (eventAt 5))))]

/-- At the end everything is as it was at the start. -/
theorem steps_handOff : Steps calls.Step
    (Monitor.Calls.start {} : Monitor.State InputChannel ChannelOp ChannelCall Bool) handOff
    (Monitor.Calls.start {}) := by
  have hrun : ∃ place : Bool → Monitor.Place ChannelOp ChannelCall,
      Steps calls.Step (Monitor.Calls.start {}) handOff ⟨{}, none, place⟩ ∧
        ∀ t, place t = .idle :=
    ⟨_, .cons (.call ChannelOp.read rfl) (.cons (.acquire rfl rfl) (.cons (.wait rfl rfl)
      (.cons (.call (ChannelOp.write (eventAt 5)) rfl) (.cons (.acquire rfl rfl)
      (.cons (.pass rfl rfl) (.cons (.body rfl) (.cons (.release rfl)
      (.cons (@Monitor.Calls.Step.notifyOne _ _ _ _ _ calls _ _ true _ _ _ rfl rfl rfl)
      (.cons (.acquire rfl rfl) (.cons (.pass rfl rfl) (.cons (.body rfl) (.cons (.release rfl)
      (.single (.notifyNone rfl rfl)))))))))))))), fun t => by cases t <;> rfl⟩
  obtain ⟨place, hrun, hidle⟩ := hrun
  obtain rfl : place = fun _ => .idle := funext hidle
  exact hrun

/-- A write reaches a reader that sleeps. -/
theorem monitor_run_handOff : ∃ s : Monitor.State InputChannel ChannelOp ChannelCall Bool,
    Steps calls.Step (Monitor.Calls.start {}) handOff s ∧
    history handOff = [(false, .write (eventAt 5)), (true, .read (some (eventAt 5)))] ∧
    Steps Step {} [(false, ChannelCall.write (eventAt 5)), (true, .read (some (eventAt 5)))]
      s.shared ∧
    ∀ t, ((history handOff).filter fun x => x.1 = t).map (fun x => x.2) =
      (Monitor.stepsOf t handOff).filterMap Monitor.Label.finish? := by
  obtain ⟨hsteps, -, -, horder⟩ := monitor_run steps_handOff
  refine ⟨_, steps_handOff, rfl, hsteps, fun t => ?_⟩
  rw [(horder t).2]
  exact List.append_nil _

/-! ## Wake-ups -/

/-- Each event is a token, and a closed channel has tokens for all. -/
noncomputable def tokens : Monitor.Tokens calls where
  tokens c := if c.closed then ⊤ else c.queue.length
  waits op := op = .read
  ready_iff op c h := by
    obtain rfl := of_decide_eq_true h
    obtain ⟨queue, closed⟩ := c
    cases closed <;> cases queue <;> simp [calls]
  ready op c h := by
    cases op with
    | read => cases h
    | _ => rfl
  silent op h := by
    obtain rfl := of_decide_eq_true h
    rfl
  take op c h hready := by
    obtain rfl := of_decide_eq_true h
    obtain ⟨queue, closed⟩ := c
    cases closed with
    | true => simp [calls]
    | false =>
      cases queue with
      | nil => simp [calls] at hready
      | cons e queue => simp [calls]
  keep op c h hnotify := by
    cases op with
    | isDone => exact le_refl _
    | read => cases h
    | write e => cases hnotify
    | close => cases hnotify
  add op c hnotify := by
    cases op with
    | write e =>
      obtain ⟨queue, closed⟩ := c
      cases closed <;> simp [calls, InputChannel.write]
    | _ => cases hnotify

/-- **No wake-up is lost.** When no thread that uses the channel can go on with its call, each is in
no call, or it sleeps in `read` and the channel is empty and open: a `write` and a `close` never
leave a `read` asleep that could return. -/
theorem no_lost_wakeup [Fintype T] (h : Steps calls.Step (Monitor.Calls.start {}) as s)
    (hstuck : calls.Stuck s) (t : T) :
    s.place t = .idle ∨ s.place t = .asleep .read ∧ s.shared.queue = [] ∧
      s.shared.closed = false := by
  rcases tokens.asleep_of_stuck h hstuck t with ht | ⟨op, ht, hready⟩
  · exact Or.inl ht
  · right
    cases op with
    | read => simpa [calls, ht] using hready
    | _ => cases hready

/-- A write has woken the reader, it has read the event and reads again: it sleeps, and the channel
is empty. -/
theorem no_lost_wakeup_handOff :
    ∃ s : Monitor.State InputChannel ChannelOp ChannelCall Bool,
      Steps calls.Step (Monitor.Calls.start {})
        (handOff ++ [(true, .call .read), (true, .acquire), (true, .test false)]) s ∧
      calls.Stuck s ∧ s.place false = .idle ∧ s.place true = .asleep .read ∧
      ∀ t, s.place t = .idle ∨ s.place t = .asleep .read ∧ s.shared.queue = [] ∧
        s.shared.closed = false := by
  have hagain : ∃ s' : Monitor.State InputChannel ChannelOp ChannelCall Bool,
      Steps calls.Step (Monitor.Calls.start {})
        [(true, .call .read), (true, .acquire), (true, .test false)] s' ∧
      s'.place false = .idle ∧ s'.place true = .asleep .read :=
    ⟨_, .cons (.call ChannelOp.read rfl) (.cons (.acquire rfl rfl) (.single (.wait rfl rfl))), rfl,
      rfl⟩
  obtain ⟨s', hagain, hwriter, hreader⟩ := hagain
  have hrun := steps_handOff.append hagain
  have hstuck : calls.Stuck s' := by
    intro t l s'' hstep
    have hplace : s'.place t = .idle ∨ s'.place t = .asleep .read := by
      cases t with
      | false => exact Or.inl hwriter
      | true => exact Or.inr hreader
    -- a thread in no call can only make one, and a thread that sleeps can only wake up
    cases hstep with
    | call op _ => exact Or.inl ⟨op, rfl⟩
    | spurious _ => exact Or.inr rfl
    | acquire ht _ => rcases hplace with h | h <;> cases h.symm.trans ht
    | pass ht _ => rcases hplace with h | h <;> cases h.symm.trans ht
    | wait ht _ => rcases hplace with h | h <;> cases h.symm.trans ht
    | body ht => rcases hplace with h | h <;> cases h.symm.trans ht
    | release ht => rcases hplace with h | h <;> cases h.symm.trans ht
    | notifyNone ht _ => rcases hplace with h | h <;> cases h.symm.trans ht
    | notifyOne ht _ _ => rcases hplace with h | h <;> cases h.symm.trans ht
    | notifyNobody ht _ _ => rcases hplace with h | h <;> cases h.symm.trans ht
    | notifyAll ht _ => rcases hplace with h | h <;> cases h.symm.trans ht
  exact ⟨s', hrun, hstuck, hwriter, hreader, no_lost_wakeup hrun hstuck⟩

end InputChannel

end Xtream
