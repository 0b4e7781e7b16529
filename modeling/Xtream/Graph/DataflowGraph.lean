import Xtream.Lib.While
import Xtream.Operators.Logical

/-!
# The dataflow graph (`src/graph/dataflow_graph.h`, `stream_edge.h`)

`topologicalOrder` iterates over the map `in_degree`, whose order depends on the hash function: the
model takes the order of its keys as an argument.
-/

namespace Xtream

inductive EdgePartition
  | forward
  | keyed
  | broadcast
  deriving DecidableEq, Repr

structure StreamEdge where
  id : EdgeId
  source : OperatorId
  target : OperatorId
  partition : EdgePartition
  deriving DecidableEq, Repr

structure DataflowGraph (U : Type) where
  operators : List (LogicalOperator U)
  edges : List StreamEdge

namespace DataflowGraph

variable {U : Type}

/-- `op(id)`: the first operator with the id. Without one an assertion fails. -/
def op (g : DataflowGraph U) (id : OperatorId) : Option (LogicalOperator U) :=
  g.operators.find? fun op => op.id = id

/-- With distinct ids the operator of an id is found. -/
theorem op_eq (g : DataflowGraph U) (hids : (g.operators.map (·.id)).Nodup) {op : LogicalOperator U}
    (hop : op ∈ g.operators) : g.op op.id = some op := by
  cases hfind : g.op op.id with
  | none => exact absurd (decide_eq_true rfl) (List.find?_eq_none.mp hfind op hop)
  | some op' =>
    have hid : op'.id = op.id := by simpa using List.find?_some hfind
    rw [List.inj_on_of_nodup_map hids (List.mem_of_find?_eq_some hfind) hop hid]

def targetsOf (g : DataflowGraph U) (source : OperatorId) : List OperatorId :=
  g.edges.filterMap fun e => if e.source = source then some e.target else none

def inDegreeOf (g : DataflowGraph U) (id : OperatorId) : Nat :=
  g.edges.countP fun e => e.target = id

def outDegreeOf (g : DataflowGraph U) (id : OperatorId) : Nat :=
  g.edges.countP fun e => e.source = id

theorem length_targetsOf (g : DataflowGraph U) (id : OperatorId) :
    (g.targetsOf id).length = g.outDegreeOf id := by
  unfold targetsOf outDegreeOf
  rw [List.length_filterMap_eq_countP]
  refine List.countP_congr fun e _ => ?_
  by_cases h : e.source = id <;> simp [h]

theorem mem_targetsOf {g : DataflowGraph U} {u v : OperatorId} :
    v ∈ g.targetsOf u ↔ ∃ e ∈ g.edges, e.source = u ∧ e.target = v := by
  unfold targetsOf
  rw [List.mem_filterMap]
  refine exists_congr fun e => and_congr_right fun _ => ?_
  by_cases h : e.source = u <;> simp [h]

/-- The keys of the map `in_degree`. -/
def inDegreeKeys (g : DataflowGraph U) : List OperatorId :=
  (g.operators.map (·.id) ++ g.edges.map (·.target)).dedup

/-- The variables of the loop of `topological_order`. -/
structure OrderState where
  inDegree : OperatorId → Nat
  queue : List OperatorId
  order : List OperatorId

/-- `in_degree[neighbor]--`, and into the queue when it is 0. -/
def visit (s : OrderState) (neighbor : OperatorId) : OrderState :=
  let inDegree := Function.update s.inDegree neighbor (s.inDegree neighbor - 1)
  { s with
    inDegree
    queue := if inDegree neighbor = 0 then s.queue ++ [neighbor] else s.queue }

/-- One round of the loop: `adjacency[id]` are the targets of `id`, in the order of the edges. -/
def orderRound (g : DataflowGraph U) (s : OrderState) : OrderState :=
  match s.queue with
  | [] => s
  | id :: queue => (g.targetsOf id).foldl visit { s with queue, order := s.order ++ [id] }

/-- `topological_order()`. `keys` are the keys of `in_degree`, in the order of the iteration. -/
def topologicalOrder (fuel : Nat) (keys : List OperatorId) (g : DataflowGraph U) :
    Option (List OperatorId) :=
  (While.run (fun s => !s.queue.isEmpty) (While.pure g.orderRound) fuel
    ⟨g.inDegreeOf, keys.filter fun id => g.inDegreeOf id = 0, []⟩).map OrderState.order

end DataflowGraph

end Xtream
