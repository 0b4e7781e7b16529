import Xtream.Engine.Compilation
import Xtream.Graph.Fluent

/-!
# Graphs that the compiler keeps

A compiled operator has one successor, `next_`, and one operator is returned. A graph with two edges
from one operator keeps the edge set last, and of several sources only the first one of the
topological order is returned.

* `Forest.compile_eq`: what `compile` makes of a graph of the fluent API;
* `compile_keeps_iff`: it keeps exactly the chains.
-/

namespace Xtream

variable {U : Type}

namespace Compiled

/-- What is reached from the returned operator over `next_`. -/
inductive Reaches (c : Compiled U) : OperatorId → Prop
  | root : Reaches c c.root
  | next {id id' : OperatorId} : Reaches c id → c.next id = some id' → Reaches c id'

/-- Every operator is reached, and what an operator sends on, to `next_`, goes along every edge. -/
structure Keeps (c : Compiled U) (g : DataflowGraph U) : Prop where
  reaches : ∀ op ∈ g.operators, ∃ o, op.compile = some o ∧ c.compiled op.id = some o ∧
    c.Reaches op.id
  delivers : ∀ e ∈ g.edges, c.next e.source = some e.target

/-- What `compile` makes of a graph when all its operators compile. -/
structure Of (c : Compiled U) (g : DataflowGraph U) : Prop where
  root_mem : c.root ∈ g.operators.map (·.id)
  root_first : g.inDegreeOf c.root = 0
  compiled : ∀ op ∈ g.operators, c.compiled op.id = op.compile
  next : ∀ id, c.next id = (g.targetsOf id).getLast?

/-- An operator that is reached is the root, or an edge leads to it. -/
theorem Reaches.eq_root {c : Compiled U} {id : OperatorId} (h : c.Reaches id)
    (hnone : ∀ u, c.next u ≠ some id) : id = c.root := by
  cases h with
  | root => rfl
  | next _ hnext => exact absurd hnext (hnone _)

end Compiled

/-- What `compile` makes of a forest: a source is returned, and `next_` is the target of the
last edge. -/
theorem Forest.compile_eq {b : DataflowGraphBuilder U} (h : Forest b) (hne : b.nodes ≠ [])
    {keys : List OperatorId} (hkeys : keys.Perm b.graph.inDegreeKeys) {fuel : Nat}
    (hfuel : b.graph.operators.length + b.graph.edges.length ≤ fuel) :
    ∃ c, Compiler.compile fuel keys b.graph = some (.ok c) ∧ c.Of b.graph := by
  have hids : (b.graph.operators.map (·.id)).Nodup := b.graph_ids ▸ h.nodup
  have hknown : ∀ e ∈ b.graph.edges, e.source ∈ b.graph.operators.map (·.id) ∧
      e.target ∈ b.graph.operators.map (·.id) := b.graph_ids ▸ h.known
  have hcompile : ∀ op ∈ b.graph.operators, op.compile.isSome = true := by
    intro op hop
    obtain ⟨node, hnode, rfl⟩ := List.mem_map.mp hop
    exact h.compiles node hnode
  obtain ⟨order, hends, horders⟩ := b.graph.exists_topologicalOrder hkeys
  obtain ⟨hperm, first, rest, rfl, hzero⟩ := b.graph.orders_complete hids
    (fun hnil => hne (List.map_eq_nil_iff.mp hnil)) hknown h.acyclic horders
  obtain ⟨c, hc, rfl, hcompiled, hnext⟩ :=
    Compiler.compile_eq hids hcompile hknown (hends fuel hfuel) hperm
  exact ⟨c, hc, hperm.mem_iff.mp List.mem_cons_self, hzero, hcompiled, hnext⟩

/-- The sources of a forest are the operators that no edge leads to. -/
theorem Forest.isSource_iff {b : DataflowGraphBuilder U} (h : Forest b) {op : LogicalOperator U}
    (hop : op ∈ b.graph.operators) :
    op.impl.isSource = true ↔ b.graph.inDegreeOf op.id = 0 := by
  obtain ⟨node, hnode, rfl⟩ := List.mem_map.mp hop
  have hroots := h.roots node hnode
  refine hroots.trans ?_
  unfold DataflowGraph.inDegreeOf
  rw [List.countP_eq_zero, List.mem_map]
  constructor
  · exact fun hout e he htarget => hout ⟨e, he, of_decide_eq_true htarget⟩
  · rintro hnone ⟨e, he, htarget⟩
    exact hnone e he (decide_eq_true htarget)

/-- A list of distinct things that all have one value has one element at most. -/
theorem length_le_one_of_map {α β : Type} {f : α → β} {xs : List α} {y : β}
    (hnodup : (xs.map f).Nodup) (h : ∀ x ∈ xs, f x = y) : xs.length ≤ 1 := by
  have hall : xs.map f = List.replicate xs.length y := by
    rw [List.eq_replicate_iff]
    refine ⟨List.length_map f, fun z hz => ?_⟩
    obtain ⟨x, hx, rfl⟩ := List.mem_map.mp hz
    exact h x hx
  rw [hall] at hnodup
  exact List.nodup_replicate.mp hnodup

namespace Compiled

variable {b : DataflowGraphBuilder U} {c : Compiled U}

/-- `next_` leads along one edge, so an operator whose edges are all kept has one. -/
theorem Keeps.outDegree_le_one (h : c.Keeps b.graph) (hb : Forest b) (id : OperatorId) :
    b.graph.outDegreeOf id ≤ 1 := by
  unfold DataflowGraph.outDegreeOf
  rw [List.countP_eq_length_filter]
  cases hnext : c.next id with
  | none =>
    have hnone : (b.graph.edges.filter fun e => e.source = id) = [] := by
      refine List.filter_eq_nil_iff.mpr fun e he hsource => ?_
      have hkept := h.delivers e he
      rw [of_decide_eq_true hsource, hnext] at hkept
      cases hkept
    rw [hnone]
    exact Nat.zero_le 1
  | some v =>
    refine length_le_one_of_map (f := (·.target)) (y := v)
      (hb.targets.sublist (List.filter_sublist.map _)) fun e he => ?_
    obtain ⟨he, hsource⟩ := List.mem_filter.mp he
    have hkept := h.delivers e he
    rw [of_decide_eq_true hsource, hnext] at hkept
    exact (Option.some.inj hkept).symm

/-- Only the operator that is returned can be a source, since no edge leads to a source. -/
theorem Keeps.count_sources (h : c.Keeps b.graph) (hb : Forest b) (hc : c.Of b.graph) :
    (b.graph.operators.countP fun op => op.impl.isSource) = 1 := by
  rw [List.countP_eq_length_filter]
  refine Nat.le_antisymm (length_le_one_of_map (f := (·.id)) (y := c.root) ?_ fun op hop => ?_) ?_
  · have hids : (b.graph.operators.map (·.id)).Nodup := b.graph_ids ▸ hb.nodup
    exact hids.sublist (List.filter_sublist.map _)
  · obtain ⟨hop, hsource⟩ := List.mem_filter.mp hop
    obtain ⟨o, -, -, hreach⟩ := h.reaches op hop
    refine hreach.eq_root fun u hu => ?_
    rw [hc.next] at hu
    have hedge := DataflowGraph.mem_targetsOf.mp (List.mem_of_getLast? hu)
    exact b.graph.inDegreeOf_eq_zero.mp ((hb.isSource_iff hop).mp hsource) u hedge
  · obtain ⟨op, hop, hid⟩ := List.mem_map.mp hc.root_mem
    have hsource := (hb.isSource_iff hop).mpr (hid ▸ hc.root_first)
    exact List.length_pos_of_mem (List.mem_filter.mpr ⟨hop, hsource⟩)

/-- With one source and no fan-out every edge is kept, and every operator is reached: the one an
edge comes from has a smaller id. -/
theorem Of.keeps (hc : c.Of b.graph) (hb : Forest b)
    (hsources : (b.graph.operators.countP fun op => op.impl.isSource) = 1)
    (hout : ∀ id, b.graph.outDegreeOf id ≤ 1) : c.Keeps b.graph := by
  have hdelivers : ∀ e ∈ b.graph.edges, c.next e.source = some e.target := by
    intro e he
    have hmem : e.target ∈ b.graph.targetsOf e.source :=
      DataflowGraph.mem_targetsOf.mpr ⟨e, he, rfl, rfl⟩
    have hlen := hout e.source
    rw [← b.graph.length_targetsOf] at hlen
    obtain ⟨v, hv⟩ := List.length_eq_one_iff.mp
      (Nat.le_antisymm hlen (List.length_pos_of_mem hmem))
    rw [hv] at hmem
    rw [hc.next, hv, List.mem_singleton.mp hmem]
    rfl
  have hroot : ∀ op ∈ b.graph.operators, op.impl.isSource = true → op.id = c.root := by
    intro op hop hsource
    obtain ⟨first, hfirst, hid⟩ := List.mem_map.mp hc.root_mem
    rw [List.countP_eq_length_filter] at hsources
    obtain ⟨x, hx⟩ := List.length_eq_one_iff.mp hsources
    have hop' : op ∈ b.graph.operators.filter fun op => op.impl.isSource :=
      List.mem_filter.mpr ⟨hop, hsource⟩
    have hfirst' : first ∈ b.graph.operators.filter fun op => op.impl.isSource :=
      List.mem_filter.mpr ⟨hfirst, (hb.isSource_iff hfirst).mpr (hid ▸ hc.root_first)⟩
    rw [hx] at hop' hfirst'
    rw [← hid, List.mem_singleton.mp hop', List.mem_singleton.mp hfirst']
  have hreach : ∀ n, ∀ op ∈ b.graph.operators, op.id.raw.toNat = n → c.Reaches op.id := by
    intro n
    induction n using Nat.strongRecOn with
    | _ n ih =>
      intro op hop hn
      by_cases hsource : op.impl.isSource = true
      · rw [hroot op hop hsource]
        exact .root
      · rw [hb.isSource_iff hop, DataflowGraph.inDegreeOf_eq_zero, not_forall_not] at hsource
        obtain ⟨u, e, he, rfl, htarget⟩ := hsource
        obtain ⟨hmem, -, hlt⟩ := hb.edges e he
        rw [← b.graph_ids] at hmem
        obtain ⟨up, hup, hid⟩ := List.mem_map.mp hmem
        have hkept := hdelivers e he
        rw [htarget, ← hid] at hkept
        rw [htarget, ← hid, hn] at hlt
        exact .next (ih _ hlt up hup rfl) hkept
  refine ⟨fun op hop => ?_, hdelivers⟩
  obtain ⟨node, hnode, rfl⟩ := List.mem_map.mp hop
  obtain ⟨o, ho⟩ := Option.isSome_iff_exists.mp (hb.compiles node hnode)
  exact ⟨o, ho, (hc.compiled _ hop).trans ho, hreach _ _ hop rfl⟩

end Compiled

/-- **The compiler keeps exactly the graphs with one source and no fan-out.** -/
theorem compile_keeps_iff {b : DataflowGraphBuilder U} (hb : Fluent b) {n : Nat}
    {g : DataflowGraph U} (hg : b.build n = some g) {keys : List OperatorId}
    (hkeys : keys.Perm g.inDegreeKeys) {fuel : Nat}
    (hfuel : g.operators.length + g.edges.length ≤ fuel) :
    (∃ c, Compiler.compile fuel keys g = some (.ok c) ∧ c.Keeps g) ↔
      (g.operators.countP fun op => op.impl.isSource) = 1 ∧ ∀ id, g.outDegreeOf id ≤ 1 := by
  obtain ⟨rfl, hne⟩ := DataflowGraphBuilder.build_eq_some hg
  have hforest := hb.forest
  obtain ⟨c, hc, hof⟩ := hforest.compile_eq hne hkeys hfuel
  constructor
  · rintro ⟨c', hc', hkeeps⟩
    rw [hc] at hc'
    cases hc'
    exact ⟨hkeeps.count_sources hforest hof, hkeeps.outDegree_le_one hforest⟩
  · rintro ⟨hsources, hout⟩
    exact ⟨c, hc, hof.keeps hforest hsources hout⟩

/-! ## Fan-out -/

/-- A source with two maps behind it. -/
def fanOut : DataflowGraphBuilder Unit where
  counter := 4
  edgeCounter := 2
  nodes :=
    [⟨⟨1⟩, "source", 1, .source { func := fun s => (none, s), captured := () }⟩,
      ⟨⟨2⟩, "map", 1, .map ⟨fun s e => (e, s), ()⟩⟩, ⟨⟨3⟩, "map", 1, .map ⟨fun s e => (e, s), ()⟩⟩]
  edges := [⟨⟨0⟩, ⟨1⟩, ⟨2⟩, .forward⟩, ⟨⟨1⟩, ⟨1⟩, ⟨3⟩, .forward⟩]

theorem fanOut_fluent : Fluent fanOut := by
  have hsource : Fluent _ := @Fluent.source Unit {} (fun s => (none, s)) () _ .new rfl
  have hmap : Fluent _ := @Fluent.call Unit _ (.map (fun s e => (e, s)) ()) ⟨⟨1⟩⟩ _ hsource
    (by decide) rfl
  exact @Fluent.call Unit _ (.map (fun s e => (e, s)) ()) ⟨⟨1⟩⟩ _ hmap (by decide) rfl

theorem compile_keeps_iff_fanOut :
    (∃ c, Compiler.compile 5 [⟨3⟩, ⟨1⟩, ⟨2⟩] fanOut.graph = some (.ok c) ∧
        c.Keeps fanOut.graph) ↔
      (fanOut.graph.operators.countP fun op => op.impl.isSource) = 1 ∧
        ∀ id, fanOut.graph.outDegreeOf id ≤ 1 :=
  compile_keeps_iff fanOut_fluent (fanOut_fluent.forest.build_eq (by decide) (Nat.le_refl 5))
    (by decide) (Nat.le_refl 5)

/-- Fan-out is lost: no compiled form of the graph has both edges. -/
theorem fan_out_lost : Fluent fanOut ∧ fanOut.build 5 = some fanOut.graph ∧
    (∃ c, Compiler.compile 5 [⟨3⟩, ⟨1⟩, ⟨2⟩] fanOut.graph = some (.ok c)) ∧
    ∀ fuel keys c, Compiler.compile fuel keys fanOut.graph = some (.ok c) →
      ¬ c.Keeps fanOut.graph := by
  have hforest := fanOut_fluent.forest
  refine ⟨fanOut_fluent, hforest.build_eq (by decide) (Nat.le_refl 5), ?_, fun _ _ c _ h => ?_⟩
  · obtain ⟨c, hc, -⟩ := @Forest.compile_eq Unit fanOut hforest (by decide) [⟨3⟩, ⟨1⟩, ⟨2⟩]
      (by decide) 5 (Nat.le_refl 5)
    exact ⟨c, hc⟩
  · exact absurd (h.outDegree_le_one hforest ⟨1⟩) (by decide)

end Xtream
