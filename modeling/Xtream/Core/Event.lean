import Xtream.Core.Record

/-!
# Stream elements (`src/core/event.h`, `watermark.h`, `types/window_spec.h`, `stream_element.h`)
-/

namespace Xtream

/-- `Event<T>`. The metadata map is an association list with distinct keys. -/
structure Event (T : Type) where
  payload : T
  timestamp : UInt64
  metadata : List (String × String) := []
  deriving DecidableEq, Repr

namespace Event

variable {T : Type}

def setMetadata (e : Event T) (key value : String) : Event T :=
  { e with metadata := (key, value) :: e.metadata.filter fun kv => kv.1 != key }

end Event

/-- An event without fields. -/
def eventAt (timestamp : UInt64) : Event Record := ⟨⟨none, []⟩, timestamp, []⟩

structure Watermark where
  timestamp : UInt64
  sourceId : UInt64
  deriving DecidableEq, Repr

inductive WindowType
  | count
  | time
  deriving DecidableEq, Repr

structure WindowSpec where
  size : UInt64
  advance : UInt64
  type : WindowType
  deriving DecidableEq, Repr

def countWindow (size advance : UInt64) : WindowSpec := ⟨size, advance, .count⟩
def countTumblingWindow (size : UInt64) : WindowSpec := ⟨size, size, .count⟩
def timeWindow (size advance : UInt64) : WindowSpec := ⟨size, advance, .time⟩
def timeTumblingWindow (size : UInt64) : WindowSpec := ⟨size, size, .time⟩

/-- `std::variant<Event<Record>, Watermark>`. -/
inductive StreamElement
  | event (e : Event Record)
  | watermark (wm : Watermark)
  deriving DecidableEq, Repr

namespace StreamElement

/-- The event in the element, if it is one. -/
def event? : StreamElement → Option (Event Record)
  | event e => some e
  | watermark _ => none

/-- The watermark in the element, if it is one. -/
def watermark? : StreamElement → Option Watermark
  | event _ => none
  | watermark wm => some wm

/-- The timestamp of the event or of the watermark. -/
def timestamp : StreamElement → UInt64
  | event e => e.timestamp
  | watermark wm => wm.timestamp

@[simp] theorem event?_event (e : Event Record) : (event e).event? = some e := rfl
@[simp] theorem event?_watermark (wm : Watermark) : (watermark wm).event? = none := rfl
@[simp] theorem watermark?_event (e : Event Record) : (event e).watermark? = none := rfl
@[simp] theorem watermark?_watermark (wm : Watermark) :
    (watermark wm).watermark? = some wm := rfl

end StreamElement

/-- The events of a sequence of elements, in order. -/
def events (xs : List StreamElement) : List (Event Record) := xs.filterMap StreamElement.event?

/-- The watermarks of a sequence of elements, in order. -/
def watermarks (xs : List StreamElement) : List Watermark := xs.filterMap StreamElement.watermark?

@[simp] theorem events_nil : events [] = [] := rfl
@[simp] theorem events_cons_event (e : Event Record) (xs : List StreamElement) :
    events (.event e :: xs) = e :: events xs := rfl
@[simp] theorem events_cons_watermark (wm : Watermark) (xs : List StreamElement) :
    events (.watermark wm :: xs) = events xs := rfl
@[simp] theorem events_append (xs ys : List StreamElement) :
    events (xs ++ ys) = events xs ++ events ys := List.filterMap_append

@[simp] theorem events_map_event (es : List (Event Record)) : events (es.map .event) = es := by
  induction es with
  | nil => rfl
  | cons e es ih => exact congrArg (e :: ·) ih

theorem mem_events {e : Event Record} {xs : List StreamElement} : e ∈ events xs ↔ .event e ∈ xs := by
  unfold events
  rw [List.mem_filterMap]
  constructor
  · rintro ⟨x, hx, he⟩
    cases x with
    | event e' =>
      cases he
      exact hx
    | watermark wm => cases he
  · exact fun h => ⟨_, h, rfl⟩

@[simp] theorem watermarks_nil : watermarks [] = [] := rfl
@[simp] theorem watermarks_cons_event (e : Event Record) (xs : List StreamElement) :
    watermarks (.event e :: xs) = watermarks xs := rfl
@[simp] theorem watermarks_cons_watermark (wm : Watermark) (xs : List StreamElement) :
    watermarks (.watermark wm :: xs) = wm :: watermarks xs := rfl
@[simp] theorem watermarks_append (xs ys : List StreamElement) :
    watermarks (xs ++ ys) = watermarks xs ++ watermarks ys := List.filterMap_append

theorem mem_watermarks {wm : Watermark} {xs : List StreamElement} :
    wm ∈ watermarks xs ↔ .watermark wm ∈ xs := by
  unfold watermarks
  rw [List.mem_filterMap]
  constructor
  · rintro ⟨x, hx, hwm⟩
    cases x with
    | event e => cases hwm
    | watermark wm' =>
      cases hwm
      exact hx
  · exact fun h => ⟨_, h, rfl⟩

end Xtream
