import Xtream.Graph.DataflowGraph
import Xtream.Lib.TopologicalSort

/-!
# The topological order

`topological_order` is Kahn's algorithm on the edges of the graph, whatever the iteration order of
the map `in_degree`.

* `exists_topologicalOrder`: it ends, with an order that cannot be extended;
* `orders_complete`: without cycles all the operators are ordered.
-/

namespace Xtream

open TopologicalSort (Edge InScope Orders remaining targets)

/-- The edges as pairs. -/
def endpoints (edges : List StreamEdge) : List (OperatorId × OperatorId) :=
  edges.map fun e => (e.source, e.target)

/-- There is an edge. -/
def HasEdge (edges : List StreamEdge) (u v : OperatorId) : Prop :=
  ∃ e ∈ edges, e.source = u ∧ e.target = v

theorem edge_endpoints (edges : List StreamEdge) : Edge (endpoints edges) = HasEdge edges := by
  funext u v
  apply propext
  unfold Edge endpoints HasEdge
  rw [List.mem_map]
  constructor
  · rintro ⟨e, he, h⟩
    exact ⟨e, he, congrArg Prod.fst h, congrArg Prod.snd h⟩
  · rintro ⟨e, he, rfl, rfl⟩
    exact ⟨e, he, rfl⟩

/-- Edges from smaller to larger ids make no cycle. -/
theorem acyclic_of_ascending {edges : List StreamEdge}
    (h : ∀ e ∈ edges, e.source.raw.toNat < e.target.raw.toNat) (id : OperatorId) :
    ¬ Relation.TransGen (HasEdge edges) id id := by
  intro hcycle
  have hgrow : ∀ u v, HasEdge edges u v → u.raw.toNat < v.raw.toNat := by
    rintro u v ⟨e, he, rfl, rfl⟩
    exact h e he
  have hlt := hcycle.lift (fun v => v.raw.toNat) hgrow
  rw [Relation.transGen_eq_self] at hlt
  exact Nat.lt_irrefl _ hlt

/-- Edges into one vertex: a path goes through one of them or is a path without them. -/
theorem transGen_append {edges new : List StreamEdge} {target u v : OperatorId}
    (hnew : ∀ e ∈ new, e.target = target)
    (h : Relation.TransGen (HasEdge (edges ++ new)) u v) :
    Relation.TransGen (HasEdge edges) u v ∨
      (∃ e ∈ new, Relation.ReflTransGen (HasEdge edges) u e.source) ∧
        Relation.ReflTransGen (HasEdge edges) target v := by
  induction h with
  | single hedge =>
    obtain ⟨e, he, rfl, rfl⟩ := hedge
    rcases List.mem_append.mp he with he | he
    · exact Or.inl (.single ⟨e, he, rfl, rfl⟩)
    · exact Or.inr ⟨⟨e, he, .refl⟩, hnew e he ▸ .refl⟩
  | tail _ hedge ih =>
    obtain ⟨e, he, rfl, rfl⟩ := hedge
    rcases List.mem_append.mp he with he | he
    · have hold : HasEdge edges e.source e.target := ⟨e, he, rfl, rfl⟩
      exact ih.imp (fun ih => ih.tail hold) fun ih => ⟨ih.1, ih.2.tail hold⟩
    · refine Or.inr ⟨?_, hnew e he ▸ .refl⟩
      rcases ih with ih | ih
      · exact ⟨e, he, ih.to_reflTransGen⟩
      · exact ih.1

/-- Edges into one vertex make no cycle iff it does not lead to one of their sources. -/
theorem acyclic_append_iff {edges new : List StreamEdge} {target : OperatorId}
    (hnew : ∀ e ∈ new, e.target = target) :
    (∀ id, ¬ Relation.TransGen (HasEdge (edges ++ new)) id id) ↔
      (∀ id, ¬ Relation.TransGen (HasEdge edges) id id) ∧
        ∀ e ∈ new, ¬ Relation.ReflTransGen (HasEdge edges) target e.source := by
  have hmono : ∀ u v, HasEdge edges u v → HasEdge (edges ++ new) u v := by
    rintro u v ⟨e, he, h⟩
    exact ⟨e, List.mem_append_left new he, h⟩
  constructor
  · intro h
    refine ⟨fun id hcycle => h id (Relation.TransGen.mono hmono _ _ hcycle),
      fun e he hpath => h target ?_⟩
    have hlast : HasEdge (edges ++ new) e.source target :=
      ⟨e, List.mem_append_right edges he, rfl, hnew e he⟩
    exact Relation.TransGen.tail' (Relation.ReflTransGen.mono hmono _ _ hpath) hlast
  · rintro ⟨hold, hsources⟩ id hcycle
    rcases transGen_append hnew hcycle with hcycle | ⟨⟨e, he, hpath⟩, hback⟩
    · exact hold id hcycle
    · exact hsources e he (hback.trans hpath)

theorem known_endpoints {edges : List StreamEdge} {ids : List OperatorId}
    (h : ∀ e ∈ edges, e.source ∈ ids ∧ e.target ∈ ids) (u v : OperatorId)
    (huv : Edge (endpoints edges) u v) : u ∈ ids ∧ v ∈ ids := by
  rw [edge_endpoints] at huv
  obtain ⟨e, he, rfl, rfl⟩ := huv
  exact h e he

theorem length_endpoints (edges : List StreamEdge) : (endpoints edges).length = edges.length :=
  List.length_map _

theorem targets_endpoints (edges : List StreamEdge) (id : OperatorId) :
    targets (endpoints edges) id =
      edges.filterMap fun e => if e.source = id then some e.target else none := by
  unfold targets endpoints
  rw [List.filterMap_map]
  rfl

theorem remaining_endpoints (edges : List StreamEdge) (id : OperatorId) :
    remaining (endpoints edges) [] id = edges.countP fun e => e.target = id := by
  unfold remaining endpoints
  rw [List.countP_map]
  refine List.countP_congr fun e _ => ?_
  simp

namespace DataflowGraph

variable {U : Type}

theorem targetsOf_eq_targets (g : DataflowGraph U) (id : OperatorId) :
    g.targetsOf id = targets (endpoints g.edges) id := (targets_endpoints g.edges id).symm

/-- The state of the library's loop. -/
def OrderState.toState (s : OrderState) : TopologicalSort.State OperatorId :=
  ⟨s.inDegree, s.queue, s.order⟩

theorem foldl_visit_toState (ids : List OperatorId) (s : OrderState) :
    (ids.foldl visit s).toState = ids.foldl TopologicalSort.visit s.toState := by
  induction ids generalizing s with
  | nil => rfl
  | cons id ids ih => exact ih (visit s id)

/-- One round of the loop is one of the library's. -/
theorem orderRound_toState (g : DataflowGraph U) (s : OrderState) :
    (g.orderRound s).toState = TopologicalSort.round (endpoints g.edges) s.toState := by
  obtain ⟨inDegree, queue, order⟩ := s
  cases queue with
  | nil => rfl
  | cons id queue =>
    show ((g.targetsOf id).foldl visit _).toState =
      (targets (endpoints g.edges) id).foldl TopologicalSort.visit _
    rw [targets_endpoints]
    exact foldl_visit_toState _ _

/-- `topological_order` is the library's loop. -/
theorem topologicalOrder_eq_sort (g : DataflowGraph U) (fuel : Nat) (keys : List OperatorId) :
    g.topologicalOrder fuel keys =
      (TopologicalSort.sort fuel (endpoints g.edges) keys).map TopologicalSort.State.order := by
  have hdegree : g.inDegreeOf = remaining (endpoints g.edges) [] := by
    funext id
    exact (remaining_endpoints g.edges id).symm
  have hrun := @While.run_pure_map OrderState _ g.orderRound _ (fun t => !t.queue.isEmpty) _
    OrderState.toState (fun _ => rfl) g.orderRound_toState fuel
    ⟨g.inDegreeOf, keys.filter fun id => g.inDegreeOf id = 0, []⟩
  rw [topologicalOrder, TopologicalSort.sort, TopologicalSort.roots, ← hdegree]
  refine Eq.trans ?_ (congrArg (Option.map TopologicalSort.State.order) hrun)
  rw [Option.map_map]
  rfl

theorem inDegreeOf_eq_zero (g : DataflowGraph U) {id : OperatorId} :
    g.inDegreeOf id = 0 ↔ ∀ u, ¬ HasEdge g.edges u id := by
  unfold inDegreeOf HasEdge
  rw [List.countP_eq_zero]
  constructor
  · rintro h u ⟨e, he, -, htarget⟩
    exact h e he (decide_eq_true htarget)
  · intro h e he htarget
    exact h e.source ⟨e, he, rfl, of_decide_eq_true htarget⟩

/-- What the loop can meet: operators, and targets of edges. -/
theorem inScope_keys (g : DataflowGraph U) {keys : List OperatorId}
    (hkeys : keys.Perm g.inDegreeKeys) (id : OperatorId) :
    InScope (endpoints g.edges) keys id ↔
      InScope (endpoints g.edges) (g.operators.map (·.id)) id := by
  rw [TopologicalSort.inScope_iff, TopologicalSort.inScope_iff, List.mem_append, hkeys.mem_iff,
    inDegreeKeys, List.mem_dedup, endpoints, List.map_map, List.mem_append, List.mem_append]
  exact or_iff_left_of_imp Or.inr

/-- `topological_order` ends, with an order that cannot be extended. -/
theorem exists_topologicalOrder (g : DataflowGraph U) {keys : List OperatorId}
    (hkeys : keys.Perm g.inDegreeKeys) : ∃ order,
      (∀ fuel, g.operators.length + g.edges.length ≤ fuel →
        g.topologicalOrder fuel keys = some order) ∧
      Orders (endpoints g.edges) (g.operators.map (·.id)) order := by
  have hnodup : keys.Nodup := hkeys.nodup_iff.mpr (List.nodup_dedup _)
  obtain ⟨t, ht, -, horders⟩ := TopologicalSort.exists_sort (endpoints g.edges) hnodup
  have horders' := horders.congr (g.inScope_keys hkeys)
  have hsub : t.order ⊆ g.operators.map (·.id) ++ (endpoints g.edges).map Prod.snd := fun id hid =>
    TopologicalSort.inScope_iff.mp (horders'.scope id hid)
  have hlen : t.order.length ≤ g.operators.length + g.edges.length := by
    simpa [length_endpoints] using (horders.nodup.subperm hsub).length_le
  refine ⟨t.order, fun fuel hfuel => ?_, horders'⟩
  rw [topologicalOrder_eq_sort, ht fuel (hlen.trans hfuel)]
  rfl

/-- A graph without cycles is ordered completely, from an operator without incoming edges. -/
theorem orders_complete (g : DataflowGraph U) (hids : (g.operators.map (·.id)).Nodup)
    (hne : g.operators ≠ []) (hknown : ∀ e ∈ g.edges, e.source ∈ g.operators.map (·.id) ∧
      e.target ∈ g.operators.map (·.id))
    (hacyclic : ∀ id, ¬ Relation.TransGen (HasEdge g.edges) id id) {order : List OperatorId}
    (h : Orders (endpoints g.edges) (g.operators.map (·.id)) order) :
    order.Perm (g.operators.map (·.id)) ∧
      ∃ first rest, order = first :: rest ∧ g.inDegreeOf first = 0 := by
  have hperm : order.Perm (g.operators.map (·.id)) := by
    rw [h.perm_iff hids (known_endpoints hknown), edge_endpoints]
    exact hacyclic
  refine ⟨hperm, ?_⟩
  cases order with
  | nil => exact absurd (List.map_eq_nil_iff.mp hperm.symm.eq_nil) hne
  | cons first rest =>
    refine ⟨first, rest, rfl, g.inDegreeOf_eq_zero.mpr ?_⟩
    rw [← edge_endpoints]
    exact h.first

end DataflowGraph

end Xtream
