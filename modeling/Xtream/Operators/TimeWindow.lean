import Xtream.Operators.Basic
import Xtream.Lib.While
import Xtream.Lib.SlidingWindow

/-!
# The time window (`src/operators/physical/time_window_physical_operator.h`)

The operator keeps a sorted buffer and one counter, `nextWindowEnd`: the end of the next window to
fire. A watermark fires the windows up to its timestamp, `close` fires until the buffer is empty.
Both loops add `advance` to the counter in `u64`, which wraps.

As long as no addition wraps (`WatermarkNoWrap`, `FlushNoWrap`) the loops have a closed form over
`SlidingWindow.windowsFrom`: `onWatermark_spec` and `flush_spec` say everything a watermark and the
flush of `close` do.
-/

namespace Xtream

open SlidingWindow

structure TimeWindowPhysicalOperator (U : Type) where
  spec : WindowSpec
  func : U → List (Event Record) → Event Record × U
  captured : U
  outputChannel : Option ChannelId := none
  buffer : EventBuffer := .nil
  nextWindowEnd : UInt64 := 0
  windowInitialized : Bool := false

namespace TimeWindowPhysicalOperator

variable {U : Type}

/-- The start of a window (`start`, `earliest_active_start`): not below 0. -/
def windowStart (size windowEnd : UInt64) : UInt64 :=
  if windowEnd > size then windowEnd - size else 0

/-- The part the two loops share: query the window that ends at `nextWindowEnd`, and call the
function if it is not empty. -/
def fire (op : TimeWindowPhysicalOperator U) : TimeWindowPhysicalOperator U × List Firing :=
  let events := op.buffer.query (windowStart op.spec.size op.nextWindowEnd) op.nextWindowEnd
  if events.isEmpty then (op, [])
  else
    let r := op.func op.captured events
    ({ op with captured := r.2 }, [⟨op.nextWindowEnd, events, r.1⟩])

/-- A loop state: the operator and the firings so far. -/
abbrev LoopState (U : Type) := TimeWindowPhysicalOperator U × List Firing

/-- The body of the loop of `on_watermark`. -/
def watermarkRound (wm : Watermark) (s : LoopState U) : Option (While.Control (LoopState U)) :=
  let r := s.1.fire
  -- "guard against overflow": the loop test has just been passed with the same counter
  if r.1.nextWindowEnd > wm.timestamp then some (.brk (r.1, s.2 ++ r.2))
  else
    some (.next ({ r.1 with nextWindowEnd := r.1.nextWindowEnd + r.1.spec.advance }, s.2 ++ r.2))

def onWatermark (fuel : Nat) (op : TimeWindowPhysicalOperator U) (wm : Watermark) :
    Option (LoopState U) :=
  if !op.windowInitialized then some (op, [])
  else do
    let s ← While.run (fun s : LoopState U => s.1.nextWindowEnd ≤ wm.timestamp)
      (watermarkRound wm) fuel (op, [])
    let start := windowStart s.1.spec.size s.1.nextWindowEnd
    return ({ s.1 with buffer := s.1.buffer.cleanupBefore start }, s.2)

/-- The body of the loop of `close`. -/
def flushRound (s : LoopState U) : LoopState U :=
  let r := s.1.fire
  let nextWindowEnd := r.1.nextWindowEnd + r.1.spec.advance
  let start := windowStart r.1.spec.size nextWindowEnd
  ({ r.1 with nextWindowEnd := nextWindowEnd, buffer := r.1.buffer.cleanupBefore start },
    s.2 ++ r.2)

/-- The flush of `close`: until the buffer is empty. -/
def flush (fuel : Nat) (op : TimeWindowPhysicalOperator U) : Option (LoopState U) :=
  if op.windowInitialized then
    While.run (fun s : LoopState U => !s.1.buffer.empty) (While.pure flushRound) fuel (op, [])
  else some (op, [])

/-- An event: into the buffer; the first one sets the counter. -/
def onEvent (op : TimeWindowPhysicalOperator U) (e : Event Record) :
    TimeWindowPhysicalOperator U :=
  let op := { op with buffer := op.buffer.insert e }
  if !op.windowInitialized then
    { op with nextWindowEnd := op.spec.advance, windowInitialized := true }
  else op

/-- What `execute` does to the operator, with the firings it makes. -/
def consume (fuel : Nat) (op : TimeWindowPhysicalOperator U) : StreamElement → Option (LoopState U)
  | .event e => some (op.onEvent e, [])
  | .watermark wm => op.onWatermark fuel wm

/-- The calls a firing makes: the function, then `emit`. -/
def outputs (op : TimeWindowPhysicalOperator U) (fs : List Firing) : List Output :=
  fs.flatMap fun f => .fire f :: emit op.outputChannel f.result

def execute (fuel : Nat) (op : TimeWindowPhysicalOperator U) (elem : StreamElement) :
    Option (TimeWindowPhysicalOperator U × List Output) := do
  let s ← op.consume fuel elem
  return (s.1, op.outputs s.2)

def close (fuel : Nat) (op : TimeWindowPhysicalOperator U) :
    Option (TimeWindowPhysicalOperator U × List Output) := do
  let s ← op.flush fuel
  return (s.1, op.outputs s.2 ++ op.outputChannel.toList.map .closeChannel)

/-- The operator as it is constructed. -/
def create (spec : WindowSpec) (func : U → List (Event Record) → Event Record × U) (captured : U)
    (outputChannel : Option ChannelId) : TimeWindowPhysicalOperator U :=
  { spec, func, captured, outputChannel }

end TimeWindowPhysicalOperator

end Xtream
