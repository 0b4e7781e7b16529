import Xtream.Runtime.EventBuffer

/-!
# Sequences of calls on an event buffer

To its callers an `EventBuffer` is a multiset of events: `insert` adds one, a range of times is
copied by `query` and taken out by `extract`, and `cleanup_before` drops what is too old.

* `call_refines`: each call does this, and what it returns is sorted by timestamp;
* `run_refines`: so does a sequence of calls;
* `buffer_refines`: over a sequence of calls, each inserted event is stored, extracted or dropped.
-/

namespace Xtream

/-- A call on the buffer. -/
inductive BufferCall
  | insert (e : Event Record)
  | extract (start stop : UInt64)
  | query (start stop : UInt64)
  | cleanupBefore (timestamp : UInt64)
  deriving DecidableEq, Repr

/-- What the callers guarantee: a range does not end before it starts. -/
def BufferCall.Ordered : BufferCall → Prop
  | .extract start stop => start ≤ stop
  | .query start stop => start ≤ stop
  | _ => True

instance (c : BufferCall) : Decidable c.Ordered := by
  cases c <;> unfold BufferCall.Ordered <;> infer_instance

namespace EventBuffer

/-- What the call returns, and the buffer after it. -/
def call (b : EventBuffer) : BufferCall → List (Event Record) × EventBuffer
  | .insert e => ([], b.insert e)
  | .extract start stop => b.extract start stop
  | .query start stop => (b.query start stop, b)
  | .cleanupBefore timestamp => ([], b.cleanupBefore timestamp)

end EventBuffer

/-! ## The buffer as a multiset -/

namespace BufferCall

/-- The events that the call returns, of the stored events `m`. -/
def returned (m : Multiset (Event Record)) : BufferCall → Multiset (Event Record)
  | .extract start stop | .query start stop =>
    m.filter fun e => start ≤ e.timestamp ∧ e.timestamp < stop
  | _ => 0

/-- The events that are stored after the call. -/
def after (m : Multiset (Event Record)) : BufferCall → Multiset (Event Record)
  | .insert e => e ::ₘ m
  | .extract start stop => m.filter fun e => ¬ (start ≤ e.timestamp ∧ e.timestamp < stop)
  | .query _ _ => m
  | .cleanupBefore timestamp => m.filter fun e => timestamp ≤ e.timestamp

theorem returned_add_after (m : Multiset (Event Record)) (start stop : UInt64) :
    returned m (.extract start stop) + after m (.extract start stop) = m := by
  simp only [returned, after]
  exact Multiset.filter_add_not _ _

end BufferCall

open BufferCall

/-- A call does to the vector what it does to the multiset, and returns it sorted. -/
theorem call_refines (b : EventBuffer) {c : BufferCall} (h : c.Ordered) :
    ((b.call c).1 : Multiset (Event Record)) = returned b.events c ∧ SortedByTime (b.call c).1 ∧
      ((b.call c).2.events : Multiset (Event Record)) = after b.events c := by
  cases c with
  | insert e => exact ⟨rfl, List.Pairwise.nil, Multiset.coe_eq_coe.mpr (b.insert_perm e)⟩
  | extract start stop =>
    refine ⟨?_, ?_, ?_⟩
    · show ((b.query start stop : List (Event Record)) : Multiset (Event Record)) = _
      rw [b.query_eq]
      exact (Multiset.filter_coe _ _).symm
    · show SortedByTime (b.query start stop)
      rw [b.query_eq]
      exact b.sorted.filter _
    · exact (congrArg _ (b.extract_events h)).trans (Multiset.filter_coe _ _).symm
  | query start stop =>
    refine ⟨?_, ?_, rfl⟩
    · exact (congrArg _ (b.query_eq start stop)).trans (Multiset.filter_coe _ _).symm
    · show SortedByTime (b.query start stop)
      rw [b.query_eq]
      exact b.sorted.filter _
  | cleanupBefore timestamp =>
    exact ⟨rfl, List.Pairwise.nil,
      (congrArg _ (b.cleanupBefore_events timestamp)).trans (Multiset.filter_coe _ _).symm⟩

/-! ## What becomes of the inserted events -/

/-- A buffer with the events that went in and out of it. -/
structure Ledger where
  buffer : EventBuffer := .nil
  inserted : Multiset (Event Record) := 0
  extracted : Multiset (Event Record) := 0
  /-- The events that are in the buffer before a `cleanup_before` and not after it. -/
  cleaned : Multiset (Event Record) := 0

namespace Ledger

def call (t : Ledger) (c : BufferCall) : Ledger :=
  let r := t.buffer.call c
  match c with
  | .insert e => { t with buffer := r.2, inserted := e ::ₘ t.inserted }
  | .extract _ _ => { t with buffer := r.2, extracted := t.extracted + r.1 }
  | .query _ _ => { t with buffer := r.2 }
  | .cleanupBefore _ =>
    { t with
      buffer := r.2
      cleaned := t.cleaned + ((t.buffer.events : Multiset (Event Record)) - r.2.events) }

/-- The calls, on an initially empty buffer. -/
def run (calls : List BufferCall) : Ledger := calls.foldl call {}

@[simp] theorem call_buffer (t : Ledger) (c : BufferCall) :
    (t.call c).buffer = (t.buffer.call c).2 := by cases c <;> rfl

/-- Each inserted event is stored, or has been extracted or dropped. -/
def Balanced (t : Ledger) : Prop :=
  t.inserted = t.buffer.events + t.extracted + t.cleaned

theorem call_balanced {t : Ledger} {c : BufferCall} (h : c.Ordered) (ht : t.Balanced) :
    (t.call c).Balanced := by
  obtain ⟨hreturned, -, hafter⟩ := call_refines t.buffer h
  unfold Balanced at *
  rw [call_buffer, hafter]
  cases c with
  | insert e =>
    show e ::ₘ t.inserted = e ::ₘ (t.buffer.events : Multiset (Event Record)) + t.extracted +
      t.cleaned
    rw [ht, Multiset.cons_add, Multiset.cons_add]
  | extract start stop =>
    show t.inserted = _ + (t.extracted + _) + t.cleaned
    -- the stored events are those of the range and the others
    have hsplit := returned_add_after t.buffer.events start stop
    rw [hreturned, ht]
    conv => lhs; rw [← hsplit]
    abel
  | query start stop => exact ht
  | cleanupBefore timestamp =>
    show t.inserted = _ + t.extracted + (t.cleaned + (_ - _))
    have hle : after t.buffer.events (.cleanupBefore timestamp) ≤ t.buffer.events :=
      Multiset.filter_le _ _
    have hsplit := tsub_add_cancel_of_le hle
    rw [hafter, ht]
    generalize (t.buffer.events : Multiset (Event Record)) -
      after t.buffer.events (.cleanupBefore timestamp) = dropped at hsplit ⊢
    conv => lhs; rw [← hsplit]
    abel

theorem foldl_balanced {t : Ledger} (ht : t.Balanced) {calls : List BufferCall}
    (h : ∀ c ∈ calls, c.Ordered) : (calls.foldl call t).Balanced := by
  induction calls generalizing t with
  | nil => exact ht
  | cons c calls ih =>
    obtain ⟨hc, hcalls⟩ := List.forall_mem_cons.mp h
    exact ih (call_balanced hc ht) hcalls

theorem foldl_refines {t : Ledger} {calls : List BufferCall} (h : ∀ c ∈ calls, c.Ordered) :
    ((calls.foldl call t).buffer.events : Multiset (Event Record)) =
      calls.foldl after t.buffer.events := by
  induction calls generalizing t with
  | nil => rfl
  | cons c calls ih =>
    obtain ⟨hc, hcalls⟩ := List.forall_mem_cons.mp h
    rw [List.foldl_cons, List.foldl_cons, ih hcalls, call_buffer, (call_refines t.buffer hc).2.2]

/-- The calls do to the vector what they do to the multiset. -/
theorem run_refines {calls : List BufferCall} (h : ∀ c ∈ calls, c.Ordered) :
    ((run calls).buffer.events : Multiset (Event Record)) = calls.foldl after 0 :=
  foldl_refines h

/-- **The buffer after any calls**: sorted, with exact ranges, and no inserted event lost. -/
theorem buffer_refines (calls : List BufferCall) (h : ∀ c ∈ calls, c.Ordered) :
    let t := run calls
    SortedByTime t.buffer.events ∧
      (∀ start stop : UInt64, start ≤ stop →
        (t.buffer.call (.query start stop)).1 =
            t.buffer.events.filter (fun e => start ≤ e.timestamp ∧ e.timestamp < stop) ∧
          SortedByTime (t.buffer.call (.query start stop)).1 ∧
          (t.buffer.call (.extract start stop)).1 = (t.buffer.call (.query start stop)).1 ∧
          (t.buffer.call (.extract start stop)).2.events =
            t.buffer.events.filter (fun e => ¬ (start ≤ e.timestamp ∧ e.timestamp < stop)) ∧
          (t.buffer.call (.query start stop)).2 = t.buffer) ∧
      (∀ bound : UInt64, (t.buffer.call (.cleanupBefore bound)).2.events =
        t.buffer.events.filter fun e => ¬ e.timestamp < bound) ∧
      t.inserted = t.buffer.events + t.extracted + t.cleaned := by
  intro t
  refine ⟨t.buffer.sorted, fun start stop hle => ⟨?_, ?_, rfl, ?_, rfl⟩, fun bound => ?_, ?_⟩
  · exact t.buffer.query_eq start stop
  · exact (call_refines t.buffer (c := .query start stop) hle).2.1
  · exact t.buffer.extract_events hle
  · refine (t.buffer.cleanupBefore_events bound).trans (List.filter_congr fun e _ => ?_)
    simp [UInt64.not_lt]
  · exact foldl_balanced (t := {}) rfl h

/-- Two events, one of them extracted. -/
theorem buffer_refines_two :
    (run [.insert (eventAt 5), .insert (eventAt 3), .extract 0 4]).inserted =
      (run [.insert (eventAt 5), .insert (eventAt 3), .extract 0 4]).buffer.events +
        (run [.insert (eventAt 5), .insert (eventAt 3), .extract 0 4]).extracted +
        (run [.insert (eventAt 5), .insert (eventAt 3), .extract 0 4]).cleaned :=
  (buffer_refines [.insert (eventAt 5), .insert (eventAt 3), .extract 0 4] (by decide)).2.2.2

end Ledger

end Xtream
