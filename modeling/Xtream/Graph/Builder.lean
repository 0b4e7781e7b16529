import Xtream.Graph.DataflowGraph

/-!
# The graph builder (`src/graph/dataflow_graph_builder.h`)

A stream handle is the id of an operator of its builder; the methods of the handle change the
builder. Nothing is returned where the program throws (a vector that cannot grow), fails an
assertion, or overflows an `int`.
-/

namespace Xtream

/-! ## Vectors and `int` -/

/-- `max_size()` of a vector: `PTRDIFF_MAX`. -/
def maxSize : Nat := 2 ^ 63 - 1

/-- `push_back`: beyond `max_size()` it throws `std::length_error`. -/
def pushBack {α : Type} (xs : List α) (x : α) : Option (List α) :=
  if xs.length < maxSize then some (xs ++ [x]) else none

def intMin : Int := -2 ^ 31

def intMax : Int := 2 ^ 31 - 1

/-- `++` on an `int`: the overflow is undefined behaviour. -/
def increment (n : Int) : Option Int := if n < intMax then some (n + 1) else none

/-- `--` on an `int`. -/
def decrement (n : Int) : Option Int := if intMin < n then some (n - 1) else none

/-! ## The builder -/

structure StreamNode (U : Type) where
  id : OperatorId
  name : String
  parallelism : UInt64
  op : LogicalImpl U

/-- The logical operator that `build` makes of a node. -/
def StreamNode.toOperator {U : Type} (node : StreamNode U) : LogicalOperator U :=
  ⟨node.id, node.name, node.parallelism, node.op⟩

structure ValidationResult where
  isOk : Bool
  message : String
  deriving DecidableEq, Repr

namespace ValidationResult

def ok : ValidationResult := ⟨true, ""⟩

def error (msg : String) : ValidationResult := ⟨false, msg⟩

end ValidationResult

structure DataflowGraphBuilder (U : Type) where
  counter : UInt64 := 1
  edgeCounter : UInt64 := 0
  nodes : List (StreamNode U) := []
  edges : List StreamEdge := []

structure StreamHandle where
  id : OperatorId
  deriving DecidableEq, Repr

structure WindowedStreamHandle where
  upstream : OperatorId
  spec : WindowSpec

namespace DataflowGraphBuilder

variable {U : Type}

def nextId (b : DataflowGraphBuilder U) : OperatorId × DataflowGraphBuilder U :=
  (⟨b.counter⟩, { b with counter := b.counter + 1 })

def addNode (node : StreamNode U) (b : DataflowGraphBuilder U) :
    Option (DataflowGraphBuilder U) := do
  let nodes ← pushBack b.nodes node
  return { b with nodes }

def addEdge (source target : OperatorId) (partition : EdgePartition) (b : DataflowGraphBuilder U) :
    Option (DataflowGraphBuilder U) := do
  let edges ← pushBack b.edges ⟨⟨b.edgeCounter⟩, source, target, partition⟩
  return { b with edgeCounter := b.edgeCounter + 1, edges }

def source (func : U → Option (Event Record) × U) (captured : U) (b : DataflowGraphBuilder U) :
    Option (StreamHandle × DataflowGraphBuilder U) := do
  let (id, b) := b.nextId
  let b ← b.addNode ⟨id, "source", 1, .source { func, captured }⟩
  return (⟨id⟩, b)

/-- The loop of `set_source_lateness` over the nodes. -/
def setLateness (id : OperatorId) (lateness : UInt64) :
    List (StreamNode U) → Option (List (StreamNode U))
  | [] => none
  | node :: nodes =>
    if node.id ≠ id then (setLateness id lateness nodes).map (node :: ·)
    else
      match node.op with
      | .source op => some ({ node with op := .source { op with allowedLateness := lateness } } :: nodes)
      | _ => none

def setSourceLateness (id : OperatorId) (lateness : UInt64) (b : DataflowGraphBuilder U) :
    Option (DataflowGraphBuilder U) := do
  let nodes ← setLateness id lateness b.nodes
  return { b with nodes }

end DataflowGraphBuilder

namespace StreamHandle

variable {U : Type}

/-- A new operator behind a handle: the common part of the methods below. -/
def connect (h : StreamHandle) (name : String) (op : LogicalImpl U) (b : DataflowGraphBuilder U) :
    Option (StreamHandle × DataflowGraphBuilder U) := do
  let (id, b) := b.nextId
  let b ← b.addNode ⟨id, name, 1, op⟩
  let b ← b.addEdge h.id id .forward
  return (⟨id⟩, b)

def map (h : StreamHandle) (func : U → Event Record → Event Record × U) (captured : U) :
    DataflowGraphBuilder U → Option (StreamHandle × DataflowGraphBuilder U) :=
  h.connect "map" (.map ⟨func, captured⟩)

def filter (h : StreamHandle) (func : U → Event Record → (Bool × Event Record) × U) (captured : U) :
    DataflowGraphBuilder U → Option (StreamHandle × DataflowGraphBuilder U) :=
  h.connect "filter" (.filter ⟨func, captured⟩)

def sink (h : StreamHandle) (func : U → Event Record → U) (captured : U) :
    DataflowGraphBuilder U → Option (StreamHandle × DataflowGraphBuilder U) :=
  h.connect "sink" (.sink ⟨func, captured⟩)

def window (h : StreamHandle) (spec : WindowSpec) : WindowedStreamHandle := ⟨h.id, spec⟩

/-- A new operator behind two handles. -/
def join (h other : StreamHandle) (name : String) (op : LogicalImpl U)
    (b : DataflowGraphBuilder U) : Option (StreamHandle × DataflowGraphBuilder U) := do
  let (id, b) := b.nextId
  let b ← b.addNode ⟨id, name, 1, op⟩
  let b ← b.addEdge h.id id .forward
  let b ← b.addEdge other.id id .forward
  return (⟨id⟩, b)

def windowJoin (h other : StreamHandle) :
    DataflowGraphBuilder U → Option (StreamHandle × DataflowGraphBuilder U) :=
  h.join other "window_join" .windowJoin

def intervalJoin (h other : StreamHandle) :
    DataflowGraphBuilder U → Option (StreamHandle × DataflowGraphBuilder U) :=
  h.join other "interval_join" .intervalJoin

def withWatermark (h : StreamHandle) (allowedLateness : UInt64) (b : DataflowGraphBuilder U) :
    Option (StreamHandle × DataflowGraphBuilder U) := do
  let b ← b.setSourceLateness h.id allowedLateness
  return (h, b)

end StreamHandle

namespace WindowedStreamHandle

variable {U : Type}

def reduce (h : WindowedStreamHandle) (func : U → List (Event Record) → Event Record × U)
    (captured : U) :
    DataflowGraphBuilder U → Option (StreamHandle × DataflowGraphBuilder U) :=
  (StreamHandle.mk h.upstream).connect "window" (.window ⟨h.spec, func, captured⟩)

def aggregate (h : WindowedStreamHandle) (func : U → List (Event Record) → Event Record × U)
    (captured : U) :
    DataflowGraphBuilder U → Option (StreamHandle × DataflowGraphBuilder U) :=
  (StreamHandle.mk h.upstream).connect "window" (.window ⟨h.spec, func, captured⟩)

end WindowedStreamHandle

/-! ## Validation -/

namespace DataflowGraphBuilder

variable {U : Type}

/-- `in_degree[edge.target()]++`. -/
def countEdge (inDegree : OperatorId → Int) (e : StreamEdge) : Option (OperatorId → Int) := do
  let n ← increment (inDegree e.target)
  return Function.update inDegree e.target n

/-- The variables of the loop of `check_no_cycles`. -/
structure CycleState where
  inDegree : OperatorId → Int
  queue : List OperatorId
  visited : Nat

/-- `in_degree[neighbor]--`, and into the queue when it is 0. -/
def visit (s : CycleState) (neighbor : OperatorId) : Option CycleState := do
  let n ← decrement (s.inDegree neighbor)
  return { s with
    inDegree := Function.update s.inDegree neighbor n
    queue := if n = 0 then s.queue ++ [neighbor] else s.queue }

/-- `adjacency[id]`. -/
def adjacency (b : DataflowGraphBuilder U) (id : OperatorId) : List OperatorId :=
  b.edges.filterMap fun e => if e.source = id then some e.target else none

/-- One round of the loop. -/
def cycleRound (b : DataflowGraphBuilder U) (s : CycleState) :
    Option (While.Control CycleState) :=
  match s.queue with
  | [] => none
  | id :: queue => do
    let s ← (b.adjacency id).foldlM visit { s with queue, visited := s.visited + 1 }
    return .next s

def checkNoCycles (fuel : Nat) (b : DataflowGraphBuilder U) : Option ValidationResult := do
  let inDegree ← b.edges.foldlM countEdge fun _ => 0
  let queue := (b.nodes.map (·.id)).filter fun id => inDegree id = 0
  let s ← While.run (fun s : CycleState => !s.queue.isEmpty) b.cycleRound fuel ⟨inDegree, queue, 0⟩
  if s.visited ≠ b.nodes.length then return .error "graph contains a cycle"
  return .ok

/-- The loop of `check_edges`; `known` are the ids of the nodes. -/
def checkEdgesFrom (known : List OperatorId) : List StreamEdge → ValidationResult
  | [] => .ok
  | e :: edges =>
    if e.source ∉ known then .error "edge references unknown source operator"
    else if e.target ∉ known then .error "edge references unknown target operator"
    else checkEdgesFrom known edges

def checkEdges (b : DataflowGraphBuilder U) : ValidationResult :=
  checkEdgesFrom (b.nodes.map (·.id)) b.edges

def validate (fuel : Nat) (b : DataflowGraphBuilder U) : Option ValidationResult :=
  if b.nodes.isEmpty then some (.error "graph has no operators")
  else do
    let cycleResult ← b.checkNoCycles fuel
    if !cycleResult.isOk then return cycleResult
    if !b.checkEdges.isOk then return b.checkEdges
    return .ok

/-- The graph that `build` returns. -/
def graph (b : DataflowGraphBuilder U) : DataflowGraph U :=
  ⟨b.nodes.map StreamNode.toOperator, b.edges⟩

/-- `build()`: an assertion fails when the graph is not valid. -/
def build (fuel : Nat) (b : DataflowGraphBuilder U) : Option (DataflowGraph U) := do
  let result ← b.validate fuel
  if result.isOk then return b.graph else none

end DataflowGraphBuilder

end Xtream
