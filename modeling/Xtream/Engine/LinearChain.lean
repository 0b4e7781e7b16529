import Xtream.Engine.Compilation
import Xtream.Engine.ExecutionGraph
import Xtream.Graph.Linear

/-!
# The chain of a linear graph

* `IsPath.ofGraph_eq`: the chain of a linear graph is its path, compiled;
* `IsPath.build_eq`: `build` cuts this chain behind every window.

`IsLinear` says that the path leads from a source over maps, filters and windows to a sink.
-/

namespace Xtream

namespace DataflowGraph.IsPath

variable {U : Type} {g : DataflowGraph U} {path : List (LogicalOperator U)}

/-- The chain from an operator of the path on. -/
theorem chainFrom_eq {c : Compiled U} {before after : List (LogicalOperator U)}
    (hpath : path = before ++ after) (hnext : ∀ before id after,
      path.map (·.id) = before ++ id :: after → c.next id = after.head?)
    (hcompiled : ∀ op ∈ path, c.compiled op.id = op.compile) {ops : Chain U}
    (hops : after.map (·.compile) = ops.map some) {fuel : Nat} (hfuel : after.length ≤ fuel) :
    c.chainFrom fuel (after.map (·.id)).head? = some ops := by
  induction after generalizing before ops fuel with
  | nil =>
    obtain rfl : ops = [] := List.map_eq_nil_iff.mp hops.symm
    cases fuel <;> rfl
  | cons op after ih =>
    obtain ⟨o, ops, rfl, ho, hrest⟩ := List.map_eq_cons_iff.mp hops.symm
    have hop : op.compile = some o := ho.symm
    obtain ⟨n, rfl⟩ := Nat.exists_eq_add_of_lt hfuel
    have hmem : op ∈ path := by rw [hpath]; simp
    have hn := hnext (before.map (·.id)) op.id (after.map (·.id)) (by rw [hpath]; simp)
    have hih := @ih (before ++ [op]) (by rw [hpath]; simp) ops hrest.symm (after.length + n)
      (Nat.le_add_right _ _)
    show c.chainFrom (after.length + n + 1) (some op.id) = _
    rw [Compiled.chainFrom, hcompiled op hmem, hop]
    show (c.chainFrom (after.length + n) (c.next op.id)).map (o :: ·) = _
    rw [hn, hih]
    rfl

/-- The chain of a linear graph is its path, compiled. -/
theorem ofGraph_eq (h : g.IsPath path) (hne : path ≠ []) {keys : List OperatorId}
    (hkeys : keys.Perm g.inDegreeKeys) {ops : Chain U}
    (hops : path.map (·.compile) = ops.map some) {fuel : Nat} (hfuel : path.length ≤ fuel) :
    Pipeline.ofGraph fuel keys g = some ops := by
  have hoperators : ∀ {op}, op ∈ g.operators ↔ op ∈ path := h.operators.mem_iff
  have hcompile : ∀ op ∈ g.operators, op.compile.isSome = true := by
    intro op hop
    have hmem : op.compile ∈ ops.map some := hops ▸ List.mem_map_of_mem (hoperators.mp hop)
    obtain ⟨o, -, ho⟩ := List.mem_map.mp hmem
    rw [← ho]
    rfl
  have hknown : ∀ e ∈ g.edges, e.source ∈ g.operators.map (·.id) ∧
      e.target ∈ g.operators.map (·.id) := by
    intro e he
    have hpair := mem_of_consecutive (h.edges.mem_iff.mp (List.mem_map.mpr ⟨e, he, rfl⟩))
    have hids := h.operators.map (·.id)
    exact ⟨hids.mem_iff.mpr hpair.1, hids.mem_iff.mpr (List.mem_of_mem_tail hpair.2)⟩
  cases hpath : path with
  | nil => exact absurd hpath hne
  | cons op rest =>
    have horder := h.topologicalOrder_eq hne hkeys hfuel
    rw [hpath] at horder
    obtain ⟨c, hc, hroot, hcompiled, hnext⟩ := Compiler.compile_eq h.nodup_ids hcompile hknown
      horder (by rw [← List.map_cons, ← hpath]; exact (h.operators.map (·.id)).symm)
    have hfollow : ∀ before id after, path.map (·.id) = before ++ id :: after →
        c.next id = after.head? := by
      intro before id after hids
      rw [hnext, h.targetsOf_eq hids]
      cases after.head? <;> rfl
    have hchain := @chainFrom_eq U path c [] path rfl hfollow
      (fun op hop => hcompiled op (hoperators.mpr hop)) ops hops fuel hfuel
    unfold Pipeline.ofGraph
    rw [hc]
    show c.chainFrom fuel (some c.root) = _
    rw [hroot]
    rw [hpath] at hchain
    exact hchain

/-- `build` of a linear graph cuts its chain behind every window. -/
theorem build_eq (h : g.IsPath path) {keys : List OperatorId} (hkeys : keys.Perm g.inDegreeKeys)
    {root : PhysicalOperator U} {rest : Chain U} (hroot : root.isWindow = false)
    (hops : path.map (·.compile) = (root :: rest).map some) {fuel : Nat}
    (hfuel : path.length ≤ fuel) :
    ExecutionGraph.build fuel keys g = some (ExecutionGraph.pipelines 0 [root] rest) := by
  have hlen : path.length = rest.length + 1 := by
    simpa using congrArg List.length hops
  have hne : path ≠ [] := List.ne_nil_of_length_pos (by omega)
  unfold ExecutionGraph.build
  rw [h.ofGraph_eq hne hkeys hops hfuel]
  exact ExecutionGraph.buildFrom_eq hroot (hlen ▸ hfuel)

end DataflowGraph.IsPath

/-! ## From a source to a sink -/

/-- `Source -> (Map | Filter | Window)* -> Sink`. -/
structure DataflowGraph.IsLinear {U : Type} (g : DataflowGraph U) (source : SourceLogicalOperator U)
    (transforms : List (LogicalImpl U)) (sink : SinkLogicalOperator U) : Prop where
  path : ∃ path, g.IsPath path ∧ path.map (·.impl) = .source source :: (transforms ++ [.sink sink])
  transforms : ∀ impl ∈ transforms, impl.isTransform = true

/-- The operators between the source and the sink, compiled. -/
def compileTransforms {U : Type} (transforms : List (LogicalImpl U)) : Chain U :=
  transforms.filterMap LogicalImpl.compile

namespace DataflowGraph.IsLinear

variable {U : Type} {g : DataflowGraph U} {source : SourceLogicalOperator U}
  {transforms : List (LogicalImpl U)} {sink : SinkLogicalOperator U}

theorem compile_transforms (h : g.IsLinear source transforms sink) :
    transforms.map LogicalImpl.compile = (compileTransforms transforms).map some := by
  have htransforms := h.transforms
  clear h
  unfold compileTransforms
  induction transforms with
  | nil => rfl
  | cons impl transforms ih =>
    obtain ⟨himpl, hrest⟩ := List.forall_mem_cons.mp htransforms
    rw [List.map_cons, ih hrest]
    cases impl with
    | map op => rfl
    | filter op => rfl
    | window op => rfl
    | _ => cases himpl

theorem exists_path (h : g.IsLinear source transforms sink) : ∃ path, g.IsPath path ∧
    path.length = transforms.length + 2 ∧ path.map (·.compile) =
      (source.compile :: (compileTransforms transforms ++ [sink.compile])).map some := by
  obtain ⟨path, hpath, himpl⟩ := h.path
  refine ⟨path, hpath, by simpa using congrArg List.length himpl, ?_⟩
  have hcompile : path.map (·.compile) = (path.map (·.impl)).map LogicalImpl.compile := by
    rw [List.map_map]
    rfl
  rw [hcompile, himpl, List.map_cons, List.map_append, h.compile_transforms]
  simp [LogicalImpl.compile]

/-- One chain: `Pipeline(graph)`. -/
theorem ofGraph_eq (h : g.IsLinear source transforms sink) {keys : List OperatorId}
    (hkeys : keys.Perm g.inDegreeKeys) {fuel : Nat} (hfuel : transforms.length + 2 ≤ fuel) :
    Pipeline.ofGraph fuel keys g =
      some (source.compile :: (compileTransforms transforms ++ [sink.compile])) := by
  obtain ⟨path, hpath, hlen, hops⟩ := h.exists_path
  exact hpath.ofGraph_eq (List.ne_nil_of_length_pos (by omega)) hkeys hops (hlen ▸ hfuel)

/-- Several pipelines: `ExecutionGraph::build(graph)`. -/
theorem build_eq (h : g.IsLinear source transforms sink) {keys : List OperatorId}
    (hkeys : keys.Perm g.inDegreeKeys) {fuel : Nat} (hfuel : transforms.length + 2 ≤ fuel) :
    ExecutionGraph.build fuel keys g = some (ExecutionGraph.pipelines 0 [source.compile]
      (compileTransforms transforms ++ [sink.compile])) := by
  obtain ⟨path, hpath, hlen, hops⟩ := h.exists_path
  exact hpath.build_eq hkeys rfl hops (hlen ▸ hfuel)

end DataflowGraph.IsLinear

end Xtream
