import Xtream.Engine.Compilation
import Xtream.Graph.Faults

/-!
# Compiling the joins

The joins compile to a null pointer. `set_next(nullptr)` is fine, so a join without operators behind
it compiles; an edge from a join is a call of `set_next` on the null pointer.

* `setNexts_ok_iff`: the second loop of `compile` succeeds iff no edge comes from a null operator;
* `compile_nonNull_iff`: a valid graph compiles iff no edge comes from a join.
-/

namespace Xtream

open KahnNetwork (Steps)

variable {U : Type}

def LogicalImpl.isJoin : LogicalImpl U → Bool
  | .windowJoin => true
  | .intervalJoin => true
  | _ => false

theorem LogicalImpl.compile_isSome (impl : LogicalImpl U) :
    impl.compile.isSome = !impl.isJoin := by
  cases impl <;> rfl

namespace Compiler

/-- The second loop calls `set_next` on the source of every edge. -/
theorem setNexts_ok_iff {compiled : OperatorId → Option (PhysicalOperator U)}
    {edges : List StreamEdge} {next : OperatorId → Option OperatorId} :
    (∃ next', setNexts compiled next edges = .ok next') ↔
      ∀ e ∈ edges, (compiled e.source).isSome = true := by
  induction edges generalizing next with
  | nil => exact iff_of_true ⟨next, rfl⟩ (List.forall_mem_nil _)
  | cons e edges ih =>
    rw [List.forall_mem_cons, setNexts]
    cases hsource : compiled e.source with
    | none => simp
    | some op =>
      rw [ih]
      simp

/-- What `compile` returns from an order: the first fault of the two loops, or the first operator of
the order. -/
theorem compile_of_order {g : DataflowGraph U} {fuel : Nat} {keys : List OperatorId}
    {root : OperatorId} {order : List OperatorId}
    (horder : g.topologicalOrder fuel keys = some (root :: order))
    {compiled : OperatorId → Option (PhysicalOperator U)}
    (hcompiled : compileOperators g (fun _ => none) (root :: order) = .ok compiled) :
    compile fuel keys g = some ((setNexts compiled (fun _ => none) g.edges).map
      fun next => ⟨compiled, next, root⟩) := by
  unfold compile
  rw [horder, Option.map_some, hcompiled]
  show some (Except.bind (setNexts compiled (fun _ => none) g.edges) _) = _
  cases setNexts compiled (fun _ => none) g.edges <;> rfl

end Compiler

/-- `compile` returns an operator, and no null pointer is dereferenced on the way. -/
def NonNull (result : Except CompileFault (Compiled U)) : Prop :=
  ∃ c, result = .ok c ∧ (c.compiled c.root).isSome = true

/-- An operator without incoming edges is a source. -/
theorem Built.isJoin_of_inDegree {b : DataflowGraphBuilder U} (h : Built b) {node : StreamNode U}
    (hnode : node ∈ b.nodes) (hroot : b.graph.inDegreeOf node.id = 0) : node.op.isJoin = false := by
  have hinputs : node.op.inputs = 0 := (h.inputs node hnode).symm.trans hroot
  cases hop : node.op <;> rw [hop] at hinputs <;> first | rfl | cases hinputs

/-- What `compile` makes of a well-formed graph: the joins are null, the root is not, and the second
loop decides. -/
theorem Built.compile_eq {b : DataflowGraphBuilder U} (hb : Built b) (hwell : b.WellFormed)
    {keys : List OperatorId} (hkeys : keys.Perm b.graph.inDegreeKeys) : ∃ compiled first,
      (∀ node ∈ b.nodes, (compiled node.id).isSome = !node.op.isJoin) ∧
      (compiled first).isSome = true ∧
      ∀ fuel, b.nodes.length + b.edges.length ≤ fuel →
        Compiler.compile fuel keys b.graph =
          some ((Compiler.setNexts compiled (fun _ => none) b.edges).map
            fun next => ⟨compiled, next, first⟩) := by
  have hids : (b.graph.operators.map (·.id)).Nodup := b.graph_ids ▸ hb.nodup
  obtain ⟨order, hends, horders⟩ := b.graph.exists_topologicalOrder hkeys
  obtain ⟨hperm, first, rest, rfl, hfirst⟩ := b.graph.orders_complete hids
    (fun hnil => hwell.nonempty (List.map_eq_nil_iff.mp hnil)) (b.graph_ids ▸ hwell.known)
    hwell.acyclic horders
  obtain ⟨compiled, hok, hcompiled, -⟩ :=
    Compiler.compileOperators_eq hids (fun id hid => hperm.mem_iff.mp hid) fun _ => none
  have hnode : ∀ node ∈ b.nodes, (compiled node.id).isSome = !node.op.isJoin := by
    intro node hnode
    have hop : node.toOperator ∈ b.graph.operators := List.mem_map_of_mem hnode
    have hmem := hperm.mem_iff.mpr (List.mem_map_of_mem (f := (·.id)) hop)
    exact (congrArg Option.isSome (hcompiled _ hop hmem)).trans node.op.compile_isSome
  have hlen : b.graph.operators.length + b.graph.edges.length =
      b.nodes.length + b.edges.length := by simp [DataflowGraphBuilder.graph]
  refine ⟨compiled, first, hnode, ?_, fun fuel hfuel =>
    Compiler.compile_of_order (hends fuel (hlen ▸ hfuel)) hok⟩
  -- the root is a source
  have hmem : first ∈ b.ids := b.graph_ids ▸ hperm.mem_iff.mp List.mem_cons_self
  obtain ⟨node, hin, rfl⟩ := List.mem_map.mp hmem
  rw [hnode node hin, hb.isJoin_of_inDegree hin hfirst]
  rfl

/-- **When a valid graph compiles**: iff no edge comes from a join. -/
theorem compile_nonNull_iff {calls : List (BuilderCall U)} {b : DataflowGraphBuilder U}
    (h : Steps DataflowGraphBuilder.Step {} calls b) {fuel : Nat}
    (hvalid : b.validate fuel = some .ok) {keys : List OperatorId}
    (hkeys : keys.Perm b.graph.inDegreeKeys) : ∃ result,
      (∀ fuel, b.nodes.length + b.edges.length ≤ fuel →
        Compiler.compile fuel keys b.graph = some result) ∧
      (NonNull result ↔
        ∀ e ∈ b.edges, ∀ node ∈ b.nodes, node.id = e.source → node.op.isJoin = false) := by
  have hb := built_of_steps h
  have hwell := DataflowGraphBuilder.WellFormed.of_validate hb.nodup hvalid rfl
  obtain ⟨compiled, first, hnode, hroot, hcompile⟩ := hb.compile_eq hwell hkeys
  refine ⟨_, hcompile, ?_⟩
  have hloop : NonNull ((Compiler.setNexts compiled (fun _ => none) b.edges).map
      fun next => (⟨compiled, next, first⟩ : Compiled U)) ↔
      ∃ next, Compiler.setNexts compiled (fun _ => none) b.edges = .ok next := by
    unfold NonNull
    cases Compiler.setNexts compiled (fun _ => none) b.edges with
    | error fault => simp [Except.map]
    | ok next => simp [Except.map, hroot]
  rw [hloop, Compiler.setNexts_ok_iff]
  constructor
  · intro hall e he node hin hid
    have hsome := hall e he
    rw [← hid, hnode node hin] at hsome
    simpa using hsome
  · intro hall e he
    obtain ⟨node, hin, hid⟩ := List.mem_map.mp (hwell.known e he).1
    rw [← hid, hnode node hin, hall e he node hin hid]
    rfl

/-- A source joined with itself, and nothing behind the join. -/
theorem compile_nonNull_join : ∃ (b : DataflowGraphBuilder Unit) (result : Except CompileFault _),
    Steps DataflowGraphBuilder.Step {}
      [.source (fun u => (none, u)) (), .windowJoin ⟨⟨1⟩⟩ ⟨⟨1⟩⟩] b ∧
      Compiler.compile 4 [⟨1⟩, ⟨2⟩] b.graph = some result ∧ NonNull result := by
  have hsteps : Steps DataflowGraphBuilder.Step ({} : DataflowGraphBuilder Unit)
      [.source (fun u => (none, u)) (), .windowJoin ⟨⟨1⟩⟩ ⟨⟨1⟩⟩] _ :=
    .cons ⟨_, rfl⟩ (.single ⟨_, rfl⟩)
  obtain ⟨result, hresult, hiff⟩ := @compile_nonNull_iff Unit _ _ hsteps 4 (by decide) [⟨1⟩, ⟨2⟩]
    (by decide)
  exact ⟨_, result, hsteps, hresult 4 (by decide), hiff.mpr (by decide)⟩

/-- A sink behind the join: `validate` accepts the graph, and `set_next` is called on the null
pointer of the join. -/
theorem null_dereferenced : ∃ b : DataflowGraphBuilder Unit,
    Steps DataflowGraphBuilder.Step {}
      [.source (fun u => (none, u)) (), .windowJoin ⟨⟨1⟩⟩ ⟨⟨1⟩⟩,
        .call (.sink (fun u _ => u) ()) ⟨⟨2⟩⟩] b ∧
      b.validate 6 = some .ok ∧
      Compiler.compile 6 [⟨1⟩, ⟨2⟩, ⟨3⟩] b.graph = some (.error (.nullOperator ⟨2⟩)) :=
  ⟨_, .cons ⟨_, rfl⟩ (.cons ⟨_, rfl⟩ (.single ⟨_, rfl⟩)), by decide, rfl⟩

end Xtream
