import Xtream.Operators.Basic

/-!
# The count window (`src/operators/physical/count_window_physical_operator.h`)

The operator fires when its buffer has reached `size` events and drops the first `advance` of them.
The two places that emit differ: `fire_and_slide` writes the output channel or else calls `next_`,
`close` flushes a partial buffer to the output channel only.
-/

namespace Xtream

structure CountWindowPhysicalOperator (U : Type) where
  spec : WindowSpec
  func : U → List (Event Record) → Event Record × U
  captured : U
  outputChannel : Option ChannelId := none
  buffer : List (Event Record) := []

namespace CountWindowPhysicalOperator

variable {U : Type}

def fireAndSlide (op : CountWindowPhysicalOperator U) :
    CountWindowPhysicalOperator U × List Output :=
  let r := op.func op.captured op.buffer
  let advance := op.spec.advance.toNat
  ({ op with
      captured := r.2
      buffer := if advance ≥ op.buffer.length then [] else op.buffer.drop advance },
    emit op.outputChannel r.1)

def execute (op : CountWindowPhysicalOperator U) :
    StreamElement → CountWindowPhysicalOperator U × List Output
  | .event e =>
    let op := { op with buffer := op.buffer ++ [e] }
    if op.buffer.length = op.spec.size.toNat then op.fireAndSlide else (op, [])
  | .watermark _ => (op, [])

def close (op : CountWindowPhysicalOperator U) : CountWindowPhysicalOperator U × List Output :=
  match op.outputChannel with
  | some ch =>
    if op.buffer.isEmpty then (op, [.closeChannel ch])
    else
      let r := op.func op.captured op.buffer
      ({ op with captured := r.2 }, [.write ch r.1, .closeChannel ch])
  | none => (op, [])

/-- The operator as it is constructed, with what `set_output_channel` has set. -/
def create (spec : WindowSpec) (func : U → List (Event Record) → Event Record × U) (captured : U)
    (outputChannel : Option ChannelId) : CountWindowPhysicalOperator U :=
  { spec, func, captured, outputChannel }

end CountWindowPhysicalOperator

end Xtream
