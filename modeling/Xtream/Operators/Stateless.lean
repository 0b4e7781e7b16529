import Xtream.Operators.Basic

/-!
# Map, filter, sink and channel source (`src/operators/physical`)

Map and filter pass watermarks on. A filter's predicate takes the event by reference and the same
event goes downstream, so the predicate returns the event as it leaves it.
-/

namespace Xtream

structure MapPhysicalOperator (U : Type) where
  func : U → Event Record → Event Record × U
  captured : U

structure FilterPhysicalOperator (U : Type) where
  pred : U → Event Record → (Bool × Event Record) × U
  captured : U

structure SinkPhysicalOperator (U : Type) where
  func : U → Event Record → U
  captured : U

structure ChannelSourcePhysicalOperator where
  channel : ChannelId
  done : Bool := false
  deriving DecidableEq, Repr

namespace MapPhysicalOperator

variable {U : Type}

def execute (op : MapPhysicalOperator U) : StreamElement → MapPhysicalOperator U × List Output
  | .event e =>
    let r := op.func op.captured e
    ({ op with captured := r.2 }, [.next (.event r.1)])
  | .watermark wm => (op, [.next (.watermark wm)])

end MapPhysicalOperator

namespace FilterPhysicalOperator

variable {U : Type}

def execute (op : FilterPhysicalOperator U) :
    StreamElement → FilterPhysicalOperator U × List Output
  | .event e =>
    let r := op.pred op.captured e
    ({ op with captured := r.2 }, if r.1.1 then [.next (.event r.1.2)] else [])
  | .watermark wm => (op, [.next (.watermark wm)])

end FilterPhysicalOperator

namespace SinkPhysicalOperator

variable {U : Type}

/-- The function is called on events; watermarks are ignored. -/
def execute (op : SinkPhysicalOperator U) : StreamElement → SinkPhysicalOperator U × List Output
  | .event e => ({ op with captured := op.func op.captured e }, [.sink e])
  | .watermark _ => (op, [])

end SinkPhysicalOperator

namespace ChannelSourcePhysicalOperator

/-- `execute`, given what the channel's `read` has returned and whether there is a `next_`. -/
def execute (op : ChannelSourcePhysicalOperator) (hasNext : Bool) (read : Option (Event Record)) :
    ChannelSourcePhysicalOperator × List Output :=
  match read, hasNext with
  | some e, true => (op, [.next (.event e)])
  | _, _ => ({ op with done := true }, [])

end ChannelSourcePhysicalOperator

end Xtream
