import Xtream.Graph.BuilderCalls

/-!
# The faults that `validate` names

A `StreamHandle` can be made of any id, and a join takes the handle of another builder: an edge may
come from an operator that the builder does not have, or has only later. It always leads to the
operator that is added with it.

`check_no_cycles` comes before `check_edges` and counts the operators it meets. It never meets one
behind an unknown operator, so the count is short and the fault is reported as a cycle.

* `length_lt_of_unknown`: an edge from an unknown operator makes the count short;
* `namesFault_iff`: `validate` names the fault iff all sources are known or there is a cycle.
-/

namespace Xtream

open KahnNetwork (Steps)
open TopologicalSort (Orders)

variable {U : Type}

/-- The call changes the builder, whatever its handles are. -/
def DataflowGraphBuilder.Step (b : DataflowGraphBuilder U) (c : BuilderCall U)
    (b' : DataflowGraphBuilder U) : Prop := ∃ h, c.apply b = some (h, b')

theorem built_of_steps {calls : List (BuilderCall U)} {b : DataflowGraphBuilder U}
    (h : Steps DataflowGraphBuilder.Step {} calls b) : Built b :=
  Steps.invariant (fun _ _ _ hb ⟨_, heq⟩ => hb.apply heq) .new h

namespace Built

variable {b : DataflowGraphBuilder U}

theorem inDegree_le (h : Built b) (id : OperatorId) :
    (b.edges.countP fun e => e.target = id) ≤ 2 := by
  by_cases hid : id ∈ b.ids
  · obtain ⟨node, hnode, rfl⟩ := List.mem_map.mp hid
    rw [h.inputs node hnode]
    cases node.op <;> simp [LogicalImpl.inputs]
  · refine le_of_eq_of_le (List.countP_eq_zero.mpr fun e he htarget => hid ?_) (Nat.zero_le 2)
    exact of_decide_eq_true htarget ▸ h.targets e he

/-- The operators that are met are operators of the builder. -/
theorem order_subset (h : Built b) {order : List OperatorId}
    (horders : Orders (endpoints b.edges) b.ids order) : order ⊆ b.ids := by
  intro id hid
  rcases horders.scope id hid with hin | ⟨u, hedge⟩
  · exact hin
  · rw [edge_endpoints] at hedge
    obtain ⟨e, he, -, rfl⟩ := hedge
    exact h.targets e he

/-- Behind an unknown operator nothing is met. -/
theorem length_lt_of_unknown (h : Built b) {order : List OperatorId}
    (horders : Orders (endpoints b.edges) b.ids order) {e : StreamEdge} (he : e ∈ b.edges)
    (hsource : e.source ∉ b.ids) : order.length < b.nodes.length := by
  have hsub := horders.nodup.subperm (h.order_subset horders)
  have hle : order.length ≤ b.nodes.length := by
    simpa [DataflowGraphBuilder.ids] using hsub.length_le
  refine Nat.lt_of_le_of_ne hle fun heq => hsource ?_
  -- the target is met, and before it its source
  have hperm : order.Perm b.ids := hsub.perm_of_length_le (by simp [DataflowGraphBuilder.ids, heq])
  obtain ⟨before, after, horder⟩ := List.append_of_mem (hperm.mem_iff.mpr (h.targets e he))
  have hbefore := horders.sorted before e.target after horder e.source (by
    rw [edge_endpoints]
    exact ⟨e, he, rfl, rfl⟩)
  refine h.order_subset horders ?_
  rw [horder]
  exact List.mem_append_left _ hbefore

/-- What `validate` returns, from the order in which the check for cycles visits the operators. -/
theorem exists_verdict (h : Built b) : ∃ order, Orders (endpoints b.edges) b.ids order ∧
    ∀ fuel, b.nodes.length + b.edges.length ≤ fuel →
      b.validate fuel = some (b.verdict (b.cycleResult order.length)) := by
  obtain ⟨order, horders, hspec, hends⟩ := DataflowGraphBuilder.checkNoCycles_spec h.nodup
  refine ⟨order, horders, fun fuel hfuel => ?_⟩
  obtain ⟨cycles, hcycles⟩ := hends (fun id => (h.inDegree_le id).trans_lt (by decide)) fuel hfuel
  obtain rfl := hspec fuel cycles hcycles
  exact DataflowGraphBuilder.validate_of_checkNoCycles hcycles

/-- `validate` returns, and accepts the well-formed builders only. -/
theorem exists_validate (h : Built b) : ∃ result,
    (∀ fuel, b.nodes.length + b.edges.length ≤ fuel → b.validate fuel = some result) ∧
      (result = .ok ↔ b.WellFormed) := by
  obtain ⟨order, horders, hvalidate⟩ := h.exists_verdict
  refine ⟨_, hvalidate, ?_⟩
  rw [← DataflowGraphBuilder.verdict_isOk_iff h.nodup horders]
  exact ⟨fun heq => heq ▸ rfl, DataflowGraphBuilder.verdict_of_isOk⟩

end Built

/-- A cycle is reported only if there is one, and an edge from or to an unknown operator by its own
error if there is none. -/
def NamesFault (b : DataflowGraphBuilder U) (result : ValidationResult) : Prop :=
  (result = .error "graph contains a cycle" →
      ∃ id, Relation.TransGen (HasEdge b.edges) id id) ∧
    ((∀ id, ¬ Relation.TransGen (HasEdge b.edges) id id) →
      (∃ e ∈ b.edges, e.source ∉ b.ids ∨ e.target ∉ b.ids) →
      ∃ e ∈ b.edges,
        (e.source ∉ b.ids ∧ result = .error "edge references unknown source operator") ∨
        (e.target ∉ b.ids ∧ result = .error "edge references unknown target operator"))

/-- What `validate` says of a count that is short. -/
theorem DataflowGraphBuilder.verdict_of_lt {b : DataflowGraphBuilder U} {n : Nat}
    (h : n < b.nodes.length) :
    b.verdict (b.cycleResult n) = .error "graph contains a cycle" := by
  have hne : ¬ b.nodes.isEmpty = true := by
    rw [List.isEmpty_iff]
    rintro hnil
    rw [hnil] at h
    cases h
  rw [verdict, if_neg hne, cycleResult, if_pos (Nat.ne_of_lt h)]
  rfl

/-- Known operators: the count is short iff there is a cycle, and no edge is rejected. -/
theorem DataflowGraphBuilder.verdict_of_known {b : DataflowGraphBuilder U} (hids : b.ids.Nodup)
    {order : List OperatorId} (horders : Orders (endpoints b.edges) b.ids order)
    (hknown : ∀ e ∈ b.edges, e.source ∈ b.ids ∧ e.target ∈ b.ids)
    (hacyclic : ∀ id, ¬ Relation.TransGen (HasEdge b.edges) id id) :
    b.verdict (b.cycleResult order.length) ≠ .error "graph contains a cycle" := by
  by_cases hne : b.nodes = []
  · rw [verdict, if_pos (by rw [hne]; rfl)]
    decide
  · have hok := (verdict_isOk_iff hids horders).mpr ⟨hne, hknown, hacyclic⟩
    intro heq
    rw [heq] at hok
    cases hok

/-- **`validate` names the fault** of a builder that the API reaches iff no edge comes from an
unknown operator or the edges have a cycle. -/
theorem namesFault_iff {calls : List (BuilderCall U)} {b : DataflowGraphBuilder U}
    (h : Steps DataflowGraphBuilder.Step {} calls b) : ∃ result,
      (∀ fuel, b.nodes.length + b.edges.length ≤ fuel → b.validate fuel = some result) ∧
      (NamesFault b result ↔ (∀ e ∈ b.edges, e.source ∈ b.ids) ∨
        ∃ id, Relation.TransGen (HasEdge b.edges) id id) := by
  have hb := built_of_steps h
  obtain ⟨order, horders, hvalidate⟩ := hb.exists_verdict
  refine ⟨b.verdict (b.cycleResult order.length), hvalidate, ?_, ?_⟩
  · rintro ⟨hcycle, -⟩
    by_contra hneither
    obtain ⟨hsources, hacyclic⟩ := not_or.mp hneither
    obtain ⟨e, he⟩ := not_forall.mp hsources
    obtain ⟨he, hunknown⟩ := Classical.not_imp.mp he
    exact hacyclic (hcycle (DataflowGraphBuilder.verdict_of_lt
      (hb.length_lt_of_unknown horders he hunknown)))
  · intro hor
    refine ⟨fun heq => ?_, fun hacyclic hbad => ?_⟩
    · rcases hor with hsources | hcycle
      · by_contra hacyclic
        exact DataflowGraphBuilder.verdict_of_known hb.nodup horders
          (fun e he => ⟨hsources e he, hb.targets e he⟩) (not_exists.mp hacyclic) heq
      · exact hcycle
    · -- without a cycle all the edges are between operators
      rcases hor with hsources | ⟨id, hcycle⟩
      · obtain ⟨e, he, hout | hout⟩ := hbad
        · exact absurd (hsources e he) hout
        · exact absurd (hb.targets e he) hout
      · exact absurd hcycle (hacyclic id)

/-- A source and a map behind it. -/
theorem namesFault_two : ∃ (b : DataflowGraphBuilder Unit) (result : ValidationResult),
    Steps DataflowGraphBuilder.Step {}
      [.source (fun u => (none, u)) (), .call (.map (fun u e => (e, u)) ()) ⟨⟨1⟩⟩] b ∧
      b.validate 3 = some result ∧ NamesFault b result := by
  have hsteps : Steps DataflowGraphBuilder.Step ({} : DataflowGraphBuilder Unit)
      [.source (fun u => (none, u)) (), .call (.map (fun u e => (e, u)) ()) ⟨⟨1⟩⟩] _ :=
    .cons ⟨_, rfl⟩ (.single ⟨_, rfl⟩)
  obtain ⟨result, hresult, hiff⟩ := namesFault_iff hsteps
  exact ⟨_, result, hsteps, hresult 3 (by decide), hiff.mpr (Or.inl (by decide))⟩

/-- A single edge leads from its source to its target only. -/
theorem transGen_singleton {e : StreamEdge} {u v : OperatorId}
    (h : Relation.TransGen (HasEdge [e]) u v) : u = e.source ∧ v = e.target := by
  induction h with
  | single hedge =>
    obtain ⟨e', he', rfl, rfl⟩ := hedge
    rw [List.mem_singleton.mp he']
    exact ⟨rfl, rfl⟩
  | tail _ hedge ih =>
    obtain ⟨e', he', -, rfl⟩ := hedge
    rw [List.mem_singleton.mp he']
    exact ⟨ih.1, rfl⟩

/-- `map` on a handle with an id that the builder has not given out: no cycle, but that is the
error. -/
theorem unknown_named_cycle : ∃ b : DataflowGraphBuilder Unit,
    Steps DataflowGraphBuilder.Step {} [.call (.map (fun u e => (e, u)) ()) ⟨⟨99⟩⟩] b ∧
      b.validate 2 = some (.error "graph contains a cycle") ∧
      (∀ id, ¬ Relation.TransGen (HasEdge b.edges) id id) ∧
      ∃ e ∈ b.edges, e.source ∉ b.ids := by
  refine ⟨_, .single ⟨_, rfl⟩, by decide, fun id hcycle => ?_, by decide⟩
  obtain ⟨hsource, htarget⟩ := transGen_singleton (e := ⟨⟨0⟩, ⟨99⟩, ⟨1⟩, .forward⟩) hcycle
  rw [hsource] at htarget
  cases htarget

end Xtream
