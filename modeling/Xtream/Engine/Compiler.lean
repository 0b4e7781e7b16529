import Xtream.Engine.Pipeline
import Xtream.Graph.DataflowGraph

/-!
# The compiler (`src/engine/compiler.h`)

The operators are shared objects, here named by the operator they are made for: `compiled` is the
map, where nothing stands for a null pointer, and `next` has their `next_` pointers.
-/

namespace Xtream

/-- What `compile` can run into. -/
inductive CompileFault
  /-- `op(id)` asserts that there is an operator. -/
  | unknownOperator (id : OperatorId)
  /-- `set_next` on a null pointer. -/
  | nullOperator (id : OperatorId)
  /-- `order.front()` of an empty vector. -/
  | emptyOrder
  deriving DecidableEq, Repr

/-- The compiled operators, with the root that is returned. -/
structure Compiled (U : Type) where
  compiled : OperatorId → Option (PhysicalOperator U)
  next : OperatorId → Option OperatorId
  root : OperatorId

namespace Compiler

variable {U : Type}

/-- The first loop: an operator for each id of the order. -/
def compileOperators (g : DataflowGraph U) (compiled : OperatorId → Option (PhysicalOperator U)) :
    List OperatorId → Except CompileFault (OperatorId → Option (PhysicalOperator U))
  | [] => .ok compiled
  | id :: order =>
    match g.op id with
    | none => .error (.unknownOperator id)
    | some op => compileOperators g (Function.update compiled id op.compile) order

/-- The second loop: `set_next` for each edge. -/
def setNexts (compiled : OperatorId → Option (PhysicalOperator U))
    (next : OperatorId → Option OperatorId) :
    List StreamEdge → Except CompileFault (OperatorId → Option OperatorId)
  | [] => .ok next
  | e :: edges =>
    match compiled e.source with
    | none => .error (.nullOperator e.source)
    | some _ =>
      setNexts compiled
        (Function.update next e.source ((compiled e.target).map fun _ => e.target)) edges

/-- `compile`, given the iteration order of `topological_order`. -/
def compile (fuel : Nat) (keys : List OperatorId) (g : DataflowGraph U) :
    Option (Except CompileFault (Compiled U)) :=
  (g.topologicalOrder fuel keys).map fun order => do
    let compiled ← compileOperators g (fun _ => none) order
    let next ← setNexts compiled (fun _ => none) g.edges
    match order with
    | [] => .error .emptyOrder
    | root :: _ => .ok ⟨compiled, next, root⟩

end Compiler

namespace Compiled

variable {U : Type}

/-- The chain reached from an operator over `next_`. -/
def chainFrom (c : Compiled U) : Nat → Option OperatorId → Option (Chain U)
  | _, none => some []
  | 0, some _ => none
  | n + 1, some id =>
    match c.compiled id with
    | none => some []
    | some op => (chainFrom c n (c.next id)).map (op :: ·)

/-- The chain reached from the root. -/
def chain (fuel : Nat) (c : Compiled U) : Option (Chain U) := c.chainFrom fuel (some c.root)

end Compiled

/-- `Pipeline(graph)`: the chain of the compiled graph. -/
def Pipeline.ofGraph {U : Type} (fuel : Nat) (keys : List OperatorId) (g : DataflowGraph U) :
    Option (Chain U) := do
  let c ← Compiler.compile fuel keys g
  match c with
  | .error _ => none
  | .ok c => c.chain fuel

end Xtream
