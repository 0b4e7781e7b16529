import Xtream.Operators.Basic

/-!
# The source (`src/operators/physical/source_physical_operator.h`)

The source pulls events from a user function, forwards them, and tries to emit a watermark after
every `watermarkInterval` events and at `close`. Its actions are recorded with the attempts that
send nothing, which downstream does not see.
-/

namespace Xtream

/-- What the source does: forward an event, or call `emit_watermark`, which may send a watermark. -/
inductive SourceAction
  | forward (e : Event Record)
  | attempt (sent : Option Watermark)
  deriving DecidableEq, Repr

namespace SourceAction

/-- The element sent downstream. -/
def element? : SourceAction → Option StreamElement
  | forward e => some (.event e)
  | attempt sent => sent.map .watermark

/-- The event forwarded. -/
def event? : SourceAction → Option (Event Record)
  | forward e => some e
  | attempt _ => none

/-- The watermark sent. -/
def watermark? : SourceAction → Option Watermark
  | forward _ => none
  | attempt sent => sent

@[simp] theorem element?_forward (e : Event Record) : (forward e).element? = some (.event e) := rfl
@[simp] theorem element?_attempt (sent : Option Watermark) :
    (attempt sent).element? = sent.map .watermark := rfl
@[simp] theorem event?_forward (e : Event Record) : (forward e).event? = some e := rfl
@[simp] theorem event?_attempt (sent : Option Watermark) : (attempt sent).event? = none := rfl
@[simp] theorem watermark?_forward (e : Event Record) : (forward e).watermark? = none := rfl
@[simp] theorem watermark?_attempt (sent : Option Watermark) :
    (attempt sent).watermark? = sent := rfl

end SourceAction

/-- The elements sent downstream. -/
def elements (actions : List SourceAction) : List StreamElement :=
  actions.filterMap SourceAction.element?

/-- The events forwarded. -/
def forwarded (actions : List SourceAction) : List (Event Record) :=
  actions.filterMap SourceAction.event?

/-- The watermarks sent. -/
def sent (actions : List SourceAction) : List Watermark :=
  actions.filterMap SourceAction.watermark?

structure SourcePhysicalOperator (U : Type) where
  func : U → Option (Event Record) × U
  captured : U
  allowedLateness : UInt64 := 0
  watermarkInterval : UInt64 := 100
  done : Bool := false
  eventsSinceWatermark : UInt64 := 0
  maxTs : UInt64 := 0
  lastWatermarkTs : UInt64 := 0
  watermarkEmitted : Bool := false
  sourceId : UInt64 := 0

namespace SourcePhysicalOperator

variable {U : Type}

def emitWatermark (s : SourcePhysicalOperator U) : SourcePhysicalOperator U × SourceAction :=
  if s.maxTs < s.allowedLateness then (s, .attempt none)
  else
    let wmTs := s.maxTs - s.allowedLateness
    if !s.watermarkEmitted || wmTs > s.lastWatermarkTs then
      ({ s with lastWatermarkTs := wmTs, watermarkEmitted := true },
        .attempt (some ⟨wmTs, s.sourceId⟩))
    else (s, .attempt none)

/-- The part of `execute` after an event has been pulled. -/
def forward (s : SourcePhysicalOperator U) (e : Event Record) :
    SourcePhysicalOperator U × List SourceAction :=
  let s := { s with
    maxTs := stdMax s.maxTs e.timestamp
    eventsSinceWatermark := s.eventsSinceWatermark + 1 }
  if s.eventsSinceWatermark ≥ s.watermarkInterval then
    let r := s.emitWatermark
    ({ r.1 with eventsSinceWatermark := 0 }, [.forward e, r.2])
  else (s, [.forward e])

/-- `execute`: pull an event; when there is none the source is done. -/
def execute (s : SourcePhysicalOperator U) : SourcePhysicalOperator U × List SourceAction :=
  let r := s.func s.captured
  match r.1 with
  | none => ({ s with captured := r.2, done := true }, [])
  | some e => forward { s with captured := r.2 } e

def close (s : SourcePhysicalOperator U) : SourcePhysicalOperator U × List SourceAction :=
  if s.eventsSinceWatermark > 0 then
    let r := s.emitWatermark
    (r.1, [r.2])
  else (s, [])

/-- The calls the actions make. -/
def outputs (actions : List SourceAction) : List Output := (elements actions).map .next

/-- The operator as it is constructed. -/
def create (func : U → Option (Event Record) × U) (captured : U)
    (allowedLateness watermarkInterval : UInt64) : SourcePhysicalOperator U :=
  { func, captured, allowedLateness, watermarkInterval }

/-- `n` times `execute`. -/
def executeTimes : Nat → SourcePhysicalOperator U → SourcePhysicalOperator U × List SourceAction
  | 0, s => (s, [])
  | n + 1, s =>
    let r := s.execute
    let r' := executeTimes n r.1
    (r'.1, r.2 ++ r'.2)

/-- `n` times `execute`, then `close`: the actions. -/
def runToClose (n : Nat) (s : SourcePhysicalOperator U) : List SourceAction :=
  let r := s.executeTimes n
  r.2 ++ r.1.close.2

end SourcePhysicalOperator

end Xtream
