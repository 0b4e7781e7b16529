import Xtream.Core.Event
import Xtream.Lib.LowerBound

/-!
# The event buffer of a time window (`src/runtime/event_buffer.h`)

The buffer carries the invariant its binary searches need: it is sorted by timestamp. With it each
operation is a filter of the stored events:

* `insert_events`: the new event goes before the stored events that are not earlier;
* `query_eq`: the stored events with `start ≤ timestamp < end`;
* `extract_events`: those are removed, the others stay;
* `cleanupBefore_events`: the stored events that are not earlier than the bound stay.
-/

namespace Xtream

open LowerBound

/-- In the order of the timestamps. -/
def SortedByTime (l : List (Event Record)) : Prop := l.Pairwise (·.timestamp ≤ ·.timestamp)

instance (l : List (Event Record)) : Decidable (SortedByTime l) :=
  inferInstanceAs (Decidable (l.Pairwise _))

theorem SortedByTime.filter {l : List (Event Record)} (h : SortedByTime l)
    (p : Event Record → Bool) : SortedByTime (l.filter p) := List.Pairwise.filter p h

theorem SortedByTime.partitioned {l : List (Event Record)} (h : SortedByTime l) (t : UInt64) :
    Partitioned (fun e => e.timestamp < t) l :=
  List.Pairwise.imp (fun hab hb => by
    simp only [decide_eq_true_eq] at hb ⊢
    exact UInt64.lt_of_le_of_lt hab hb) h

/-- `EventBuffer`: a vector sorted by timestamp. -/
structure EventBuffer where
  events : List (Event Record)
  sorted : SortedByTime events

namespace EventBuffer

@[ext] theorem ext {b b' : EventBuffer} (h : b.events = b'.events) : b = b' := by
  cases b; cases b'; cases h; rfl

def nil : EventBuffer := ⟨[], List.Pairwise.nil⟩

/-- `std::ranges::lower_bound(events_, t, less, &Event::timestamp)`. -/
def lowerBound (b : EventBuffer) (t : UInt64) : Nat :=
  LowerBound.lowerBound (fun e => e.timestamp < t) b.events

theorem take_lowerBound (b : EventBuffer) (t : UInt64) :
    b.events.take (b.lowerBound t) = b.events.filter fun e => e.timestamp < t :=
  LowerBound.take_lowerBound (b.sorted.partitioned t)

theorem drop_lowerBound (b : EventBuffer) (t : UInt64) :
    b.events.drop (b.lowerBound t) = b.events.filter fun e => t ≤ e.timestamp := by
  rw [lowerBound, LowerBound.drop_lowerBound (b.sorted.partitioned t)]
  refine List.filter_congr fun e _ => ?_
  simp [← UInt64.not_lt]

/-- The vector after `insert` of `e`: the event is put at the lower bound of its timestamp. -/
def insertEvents (b : EventBuffer) (e : Event Record) : List (Event Record) :=
  b.events.take (b.lowerBound e.timestamp) ++ e :: b.events.drop (b.lowerBound e.timestamp)

theorem insertEvents_eq (b : EventBuffer) (e : Event Record) :
    b.insertEvents e = (b.events.filter fun x => x.timestamp < e.timestamp) ++
      e :: b.events.filter fun x => e.timestamp ≤ x.timestamp := by
  rw [← take_lowerBound, ← drop_lowerBound, insertEvents]

theorem insertEvents_sorted (b : EventBuffer) (e : Event Record) :
    SortedByTime (b.insertEvents e) := by
  rw [insertEvents_eq]
  refine List.pairwise_append.mpr ⟨b.sorted.filter _, ?_, ?_⟩
  · refine List.pairwise_cons.mpr ⟨fun x hx => ?_, b.sorted.filter _⟩
    simpa using (List.mem_filter.mp hx).2
  · intro x hx y hy
    have hxe : x.timestamp < e.timestamp := by simpa using (List.mem_filter.mp hx).2
    rcases List.mem_cons.mp hy with rfl | hy
    · exact UInt64.le_of_lt hxe
    · have hey : e.timestamp ≤ y.timestamp := by simpa using (List.mem_filter.mp hy).2
      exact UInt64.le_of_lt (UInt64.lt_of_lt_of_le hxe hey)

def insert (b : EventBuffer) (e : Event Record) : EventBuffer :=
  ⟨b.insertEvents e, b.insertEvents_sorted e⟩

/-- The events at the positions `lo .. hi`, copied one by one. -/
def slice (b : EventBuffer) (start stop : UInt64) : List (Event Record) :=
  (b.events.drop (b.lowerBound start)).take (b.lowerBound stop - b.lowerBound start)

def query (b : EventBuffer) (start stop : UInt64) : List (Event Record) := b.slice start stop

/-- The vector after `extract`: the positions `lo .. hi` are erased. -/
def extractEvents (b : EventBuffer) (start stop : UInt64) : List (Event Record) :=
  b.events.take (b.lowerBound start) ++
    b.events.drop (b.lowerBound start + (b.lowerBound stop - b.lowerBound start))

theorem extractEvents_sublist (b : EventBuffer) (start stop : UInt64) :
    (b.extractEvents start stop).Sublist b.events := by
  conv => rhs; rw [← List.take_append_drop (b.lowerBound start) b.events]
  refine List.Sublist.append_left ?_ _
  rw [← List.drop_drop]
  exact List.drop_sublist _ _

/-- `extract`: the events of the range, and the buffer without them. -/
def extract (b : EventBuffer) (start stop : UInt64) : List (Event Record) × EventBuffer :=
  (b.slice start stop,
    ⟨b.extractEvents start stop, List.Pairwise.sublist (b.extractEvents_sublist start stop) b.sorted⟩)

def cleanupBefore (b : EventBuffer) (timestamp : UInt64) : EventBuffer :=
  ⟨b.events.drop (b.lowerBound timestamp),
    List.Pairwise.sublist (List.drop_sublist _ _) b.sorted⟩

def size (b : EventBuffer) : Nat := b.events.length

def empty (b : EventBuffer) : Bool := b.events.isEmpty

/-! ## What each operation does to the stored events -/

@[simp] theorem nil_events : nil.events = [] := rfl

@[simp] theorem empty_eq_true {b : EventBuffer} : b.empty = true ↔ b.events = [] :=
  List.isEmpty_iff

@[simp] theorem empty_eq_false {b : EventBuffer} : b.empty = false ↔ b.events ≠ [] := by
  rw [← Bool.not_eq_true, empty_eq_true]

theorem insert_events (b : EventBuffer) (e : Event Record) :
    (b.insert e).events = (b.events.filter fun x => x.timestamp < e.timestamp) ++
      e :: b.events.filter fun x => e.timestamp ≤ x.timestamp := b.insertEvents_eq e

/-- `insert` adds the event and keeps the others. -/
theorem insert_perm (b : EventBuffer) (e : Event Record) :
    (b.insert e).events.Perm (e :: b.events) := by
  show (b.insertEvents e).Perm _
  conv => rhs; rw [← List.take_append_drop (b.lowerBound e.timestamp) b.events]
  exact List.perm_middle

/-- Before the lower bound of `stop`, the lower bound of an earlier `start` is the same position. -/
theorem lowerBound_take {b : EventBuffer} {start stop : UInt64} (h : start ≤ stop) :
    b.lowerBound start = LowerBound.lowerBound (fun e => e.timestamp < start)
      (b.events.take (b.lowerBound stop)) := by
  have hp := List.Pairwise.sublist (List.take_sublist (b.lowerBound stop) b.events)
    (b.sorted.partitioned start)
  rw [lowerBound_eq hp, takeWhile_eq_filter hp, take_lowerBound, List.filter_filter, lowerBound,
    lowerBound_eq (b.sorted.partitioned start), takeWhile_eq_filter (b.sorted.partitioned start)]
  congr 1
  refine List.filter_congr fun e _ => ?_
  rw [Bool.eq_iff_iff]
  simp only [decide_eq_true_eq, Bool.and_eq_true]
  exact ⟨fun he => ⟨he, UInt64.lt_of_lt_of_le he h⟩, And.left⟩

theorem lowerBound_mono (b : EventBuffer) {start stop : UInt64} (h : start ≤ stop) :
    b.lowerBound start ≤ b.lowerBound stop := by
  rw [lowerBound_take h]
  have hp := List.Pairwise.sublist (List.take_sublist (b.lowerBound stop) b.events)
    (b.sorted.partitioned start)
  exact (LowerBound.lowerBound_le_length hp).trans (List.length_take_le _ _)

theorem query_eq (b : EventBuffer) (start stop : UInt64) :
    b.query start stop = b.events.filter fun e => start ≤ e.timestamp ∧ e.timestamp < stop := by
  rw [query, slice, ← List.drop_take]
  by_cases h : start ≤ stop
  · have hp := List.Pairwise.sublist (List.take_sublist (b.lowerBound stop) b.events)
      (b.sorted.partitioned start)
    rw [lowerBound_take h, LowerBound.drop_lowerBound hp, take_lowerBound, List.filter_filter]
    refine List.filter_congr fun e _ => ?_
    simp [← UInt64.not_lt]
  · -- The range is empty, and so is the interval of positions.
    have hlt : stop < start := UInt64.not_le.mp h
    have hle : b.lowerBound stop ≤ b.lowerBound start := b.lowerBound_mono (UInt64.le_of_lt hlt)
    rw [List.drop_eq_nil_of_le ((List.length_take_le _ _).trans hle), List.filter_eq_nil_iff.mpr]
    intro e _ he
    simp only [decide_eq_true_eq] at he
    exact h (UInt64.le_of_lt (UInt64.lt_of_le_of_lt he.1 he.2))

@[simp] theorem extract_fst (b : EventBuffer) (start stop : UInt64) :
    (b.extract start stop).1 = b.query start stop := rfl

/-- The events before the range and those after it stay. -/
theorem extract_events (b : EventBuffer) {start stop : UInt64} (h : start ≤ stop) :
    (b.extract start stop).2.events =
      b.events.filter fun e => ¬ (start ≤ e.timestamp ∧ e.timestamp < stop) := by
  have hlo : b.lowerBound start + (b.lowerBound stop - b.lowerBound start) = b.lowerBound stop :=
    Nat.add_sub_cancel' (b.lowerBound_mono h)
  have hsplit := List.take_append_drop (b.lowerBound start) b.events
  show b.extractEvents start stop = _
  conv => rhs; rw [← hsplit, List.filter_append]
  rw [extractEvents, hlo, take_lowerBound, drop_lowerBound, drop_lowerBound, List.filter_filter,
    List.filter_filter]
  congr 1
  · refine List.filter_congr fun e _ => ?_
    simp only [← UInt64.not_lt]
    by_cases he : e.timestamp < start <;> simp [he]
  · refine List.filter_congr fun e _ => ?_
    simp only [← UInt64.not_lt]
    by_cases he : e.timestamp < stop
    · simp [he]
    · have hstart : ¬ e.timestamp < start := fun hlt =>
        he (UInt64.lt_of_lt_of_le hlt h)
      simp [he, hstart]

@[simp] theorem cleanupBefore_events (b : EventBuffer) (timestamp : UInt64) :
    (b.cleanupBefore timestamp).events = b.events.filter fun e => timestamp ≤ e.timestamp :=
  b.drop_lowerBound timestamp

end EventBuffer

end Xtream
