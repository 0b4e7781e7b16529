import Xtream.Operators.Source
import Xtream.Operators.Stateless
import Xtream.Operators.CountWindow
import Xtream.Operators.TimeWindow

/-!
# Physical operators (`src/operators/physical/physical_operator.h`)

The virtual methods of `PhysicalOperator`. `setup`, `open` and `terminate` do nothing in any
operator. The link `next_` belongs to the chain an operator is in, not to the operator.
-/

namespace Xtream

inductive PhysicalOperator (U : Type)
  | source (op : SourcePhysicalOperator U)
  | channelSource (op : ChannelSourcePhysicalOperator)
  | map (op : MapPhysicalOperator U)
  | filter (op : FilterPhysicalOperator U)
  | countWindow (op : CountWindowPhysicalOperator U)
  | timeWindow (op : TimeWindowPhysicalOperator U)
  | sink (op : SinkPhysicalOperator U)

namespace PhysicalOperator

variable {U : Type}

/-- `execute` on an element. `read` is what the channel's `read` returns to a channel source, and
`hasNext` whether there is a `next_`. -/
def execute (fuel : Nat) (hasNext : Bool) (read : Option (Event Record)) (elem : StreamElement) :
    PhysicalOperator U → Option (PhysicalOperator U × List Output)
  | source op =>
    let r := op.execute
    some (source r.1, SourcePhysicalOperator.outputs r.2)
  | channelSource op =>
    let r := op.execute hasNext read
    some (channelSource r.1, r.2)
  | map op =>
    let r := op.execute elem
    some (map r.1, r.2)
  | filter op =>
    let r := op.execute elem
    some (filter r.1, r.2)
  | countWindow op =>
    let r := op.execute elem
    some (countWindow r.1, r.2)
  | timeWindow op => (op.execute fuel elem).map fun r => (timeWindow r.1, r.2)
  | sink op =>
    let r := op.execute elem
    some (sink r.1, r.2)

def close (fuel : Nat) : PhysicalOperator U → Option (PhysicalOperator U × List Output)
  | source op =>
    let r := op.close
    some (source r.1, SourcePhysicalOperator.outputs r.2)
  | countWindow op =>
    let r := op.close
    some (countWindow r.1, r.2)
  | timeWindow op => (op.close fuel).map fun r => (timeWindow r.1, r.2)
  | op => some (op, [])

def isDone : PhysicalOperator U → Bool
  | source op => op.done
  | channelSource op => op.done
  | _ => false

def isWindow : PhysicalOperator U → Bool
  | countWindow _ => true
  | timeWindow _ => true
  | _ => false

/-- `set_output_channel` of a window operator. -/
def setOutputChannel (ch : ChannelId) : PhysicalOperator U → PhysicalOperator U
  | countWindow op => countWindow { op with outputChannel := some ch }
  | timeWindow op => timeWindow { op with outputChannel := some ch }
  | op => op

def typeName : PhysicalOperator U → String
  | source _ => "Source"
  | channelSource _ => "ChannelSource"
  | map _ => "Map"
  | filter _ => "Filter"
  | countWindow _ => "CountWindow"
  | timeWindow _ => "TimeWindow"
  | sink _ => "Sink"

/-- The channel that a channel source reads. -/
def inputChannel : PhysicalOperator U → Option ChannelId
  | channelSource op => some op.channel
  | _ => none

end PhysicalOperator

end Xtream
