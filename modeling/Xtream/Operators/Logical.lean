import Xtream.Operators.Physical

/-!
# Logical operators (`src/operators/logical`, `src/core/id.h`)

What the dataflow graph holds for each operator, and `compile`, which makes the physical operator.
The joins have no physical operator yet: their `compile` returns a null pointer.
-/

namespace Xtream

structure OperatorId where
  raw : UInt64
  deriving DecidableEq, Repr

structure EdgeId where
  raw : UInt64
  deriving DecidableEq, Repr

structure SourceLogicalOperator (U : Type) where
  func : U → Option (Event Record) × U
  captured : U
  allowedLateness : UInt64 := 0
  watermarkInterval : UInt64 := 100

structure MapLogicalOperator (U : Type) where
  func : U → Event Record → Event Record × U
  captured : U

structure FilterLogicalOperator (U : Type) where
  func : U → Event Record → (Bool × Event Record) × U
  captured : U

structure SinkLogicalOperator (U : Type) where
  func : U → Event Record → U
  captured : U

structure WindowLogicalOperator (U : Type) where
  spec : WindowSpec
  func : U → List (Event Record) → Event Record × U
  captured : U

namespace SourceLogicalOperator

variable {U : Type}

def compile (op : SourceLogicalOperator U) : PhysicalOperator U :=
  .source (.create op.func op.captured op.allowedLateness op.watermarkInterval)

end SourceLogicalOperator

namespace MapLogicalOperator

variable {U : Type}

def compile (op : MapLogicalOperator U) : PhysicalOperator U := .map ⟨op.func, op.captured⟩

end MapLogicalOperator

namespace FilterLogicalOperator

variable {U : Type}

def compile (op : FilterLogicalOperator U) : PhysicalOperator U := .filter ⟨op.func, op.captured⟩

end FilterLogicalOperator

namespace SinkLogicalOperator

variable {U : Type}

def compile (op : SinkLogicalOperator U) : PhysicalOperator U := .sink ⟨op.func, op.captured⟩

end SinkLogicalOperator

namespace WindowLogicalOperator

variable {U : Type}

def compile (op : WindowLogicalOperator U) : PhysicalOperator U :=
  match op.spec.type with
  | .count => .countWindow (.create op.spec op.func op.captured none)
  | .time => .timeWindow (.create op.spec op.func op.captured none)

end WindowLogicalOperator

/-- What a `LogicalOperator` holds (`Model<T>`). -/
inductive LogicalImpl (U : Type)
  | source (op : SourceLogicalOperator U)
  | map (op : MapLogicalOperator U)
  | filter (op : FilterLogicalOperator U)
  | sink (op : SinkLogicalOperator U)
  | window (op : WindowLogicalOperator U)
  | windowJoin
  | intervalJoin

namespace LogicalImpl

variable {U : Type}

/-- The physical operator; nothing for a null pointer. -/
def compile : LogicalImpl U → Option (PhysicalOperator U)
  | .source op => some op.compile
  | .map op => some op.compile
  | .filter op => some op.compile
  | .sink op => some op.compile
  | .window op => some op.compile
  | .windowJoin => none
  | .intervalJoin => none

/-- An operator that may stand between the source and the sink of a linear graph. -/
def isTransform : LogicalImpl U → Bool
  | .map _ => true
  | .filter _ => true
  | .window _ => true
  | _ => false

def isSource : LogicalImpl U → Bool
  | .source _ => true
  | _ => false

end LogicalImpl

structure LogicalOperator (U : Type) where
  id : OperatorId
  name : String
  parallelism : UInt64
  impl : LogicalImpl U

/-- `compile()` of the operator that is held. -/
def LogicalOperator.compile {U : Type} (op : LogicalOperator U) : Option (PhysicalOperator U) :=
  op.impl.compile

end Xtream
