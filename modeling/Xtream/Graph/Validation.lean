import Xtream.Graph.Builder
import Xtream.Graph.TopologicalOrder

/-!
# Validation

`check_no_cycles` is Kahn's algorithm as well, with an `int` for each in-degree and a count of the
vertices met instead of their order. An edge may name an unknown operator: the maps grow, and an
unknown target is counted like an operator. `check_edges` comes after it and rejects such edges, so
the count decides only for edges between operators.

* `checkNoCycles_spec`: what `check_no_cycles` returns;
* `validate_iff`: `validate` accepts exactly the well-formed builders.
-/

namespace Xtream

open TopologicalSort (Edge InScope Inv Orders remaining targets)

variable {U : Type}

namespace DataflowGraphBuilder

/-- The ids of the nodes. -/
def ids (b : DataflowGraphBuilder U) : List OperatorId := b.nodes.map (·.id)

/-- What the graph of the builder should be: operators, edges between them, and no cycle. -/
structure WellFormed (b : DataflowGraphBuilder U) : Prop where
  nonempty : b.nodes ≠ []
  known : ∀ e ∈ b.edges, e.source ∈ b.ids ∧ e.target ∈ b.ids
  acyclic : ∀ id, ¬ Relation.TransGen (HasEdge b.edges) id id

/-! ## The in-degrees -/

/-- The in-degrees are counted, unless one of them does not fit into an `int`. -/
theorem foldlM_countEdge {edges : List StreamEdge} {inDegree inDegree' : OperatorId → Int}
    (h : ∀ id, inDegree id ≤ intMax) : edges.foldlM countEdge inDegree = some inDegree' ↔
      (∀ id, inDegree id + edges.countP (fun e => e.target = id) ≤ intMax) ∧
        inDegree' = fun id => inDegree id + edges.countP fun e => e.target = id := by
  induction edges generalizing inDegree with
  | nil =>
    have hzero : (fun id => inDegree id + (0 : Nat)) = inDegree := by
      funext id
      omega
    constructor
    · intro heq
      cases heq
      exact ⟨fun id => by simpa using h id, hzero.symm⟩
    · rintro ⟨-, heq⟩
      exact congrArg some (heq.trans hzero).symm
  | cons e edges ih =>
    have hcount : ∀ id, inDegree id + (e :: edges).countP (fun e => e.target = id) =
        Function.update inDegree e.target (inDegree e.target + 1) id +
          edges.countP fun e => e.target = id := by
      intro id
      rw [List.countP_cons]
      by_cases hid : e.target = id
      · subst hid
        simp only [Function.update_self, decide_true, if_true]
        push_cast
        omega
      · simp [Function.update_of_ne (Ne.symm hid), hid]
    by_cases hlt : inDegree e.target < intMax
    · have hstep : (e :: edges).foldlM countEdge inDegree =
          edges.foldlM countEdge
            (Function.update inDegree e.target (inDegree e.target + 1)) := by
        rw [List.foldlM_cons, countEdge, increment, if_pos hlt]
        rfl
      have hle : ∀ id, Function.update inDegree e.target (inDegree e.target + 1) id ≤ intMax := by
        intro id
        by_cases hid : id = e.target
        · subst hid
          rw [Function.update_self]
          exact hlt
        · rw [Function.update_of_ne hid]
          exact h id
      rw [hstep, ih hle]
      simp only [hcount]
    · have hstep : (e :: edges).foldlM countEdge inDegree = none := by
        rw [List.foldlM_cons, countEdge, increment, if_neg hlt]
        rfl
      rw [hstep]
      refine iff_of_false (by simp) fun hle => ?_
      have htarget := hle.1 e.target
      rw [List.countP_cons, if_pos (decide_eq_true rfl)] at htarget
      push_cast at htarget
      omega

/-! ## The loop -/

/-- `in_degree[neighbor]--` for the targets of an operator, next to the library's `visit`. -/
theorem foldlM_visit {ids : List OperatorId} {s : CycleState}
    {t : TopologicalSort.State OperatorId} (hdegree : ∀ id, s.inDegree id = t.inDegree id)
    (hqueue : s.queue = t.queue) (hcount : ∀ id, ids.count id ≤ t.inDegree id) :
    ∃ s', ids.foldlM visit s = some s' ∧ s'.visited = s.visited ∧
      (∀ id, s'.inDegree id = (ids.foldl TopologicalSort.visit t).inDegree id) ∧
      s'.queue = (ids.foldl TopologicalSort.visit t).queue := by
  induction ids generalizing s t with
  | nil => exact ⟨s, rfl, rfl, hdegree, hqueue⟩
  | cons v ids ih =>
    have hv : ids.count v + 1 ≤ t.inDegree v := by simpa using hcount v
    have hstep : visit s v = some { s with
        inDegree := Function.update s.inDegree v (s.inDegree v - 1)
        queue := if s.inDegree v - 1 = 0 then s.queue ++ [v] else s.queue } := by
      have hlt : intMin < s.inDegree v := by
        rw [hdegree, intMin]
        omega
      rw [visit, decrement, if_pos hlt]
      rfl
    have hcast : s.inDegree v - 1 = ((t.inDegree v - 1 : Nat) : Int) := by
      rw [hdegree]
      omega
    obtain ⟨s', hs', hvisited, hdegree', hqueue'⟩ := @ih { s with
        inDegree := Function.update s.inDegree v (s.inDegree v - 1)
        queue := if s.inDegree v - 1 = 0 then s.queue ++ [v] else s.queue }
      (TopologicalSort.visit t v) (fun id => by
        by_cases hid : id = v
        · subst hid
          simpa [TopologicalSort.visit] using hcast
        · simpa [TopologicalSort.visit, Function.update_of_ne hid] using hdegree id) (by
        simp only [hcast, hqueue, TopologicalSort.visit, Function.update_self, Int.natCast_eq_zero])
      fun id => by
        by_cases hid : id = v
        · subst hid
          simp only [TopologicalSort.visit, Function.update_self]
          omega
        · have hother := hcount id
          rw [List.count_cons_of_ne (Ne.symm hid)] at hother
          simpa [TopologicalSort.visit, Function.update_of_ne hid] using hother
    refine ⟨s', ?_, hvisited, hdegree', hqueue'⟩
    rw [List.foldlM_cons, hstep]
    exact hs'

theorem adjacency_eq (b : DataflowGraphBuilder U) (id : OperatorId) :
    b.adjacency id = targets (endpoints b.edges) id := (targets_endpoints b.edges id).symm

/-- The loop of `check_no_cycles` next to the library's. -/
structure Follows (b : DataflowGraphBuilder U) (s : CycleState)
    (t : TopologicalSort.State OperatorId) : Prop where
  inv : Inv (endpoints b.edges) b.ids t
  inDegree : ∀ id, s.inDegree id = t.inDegree id
  queue : s.queue = t.queue
  visited : s.visited = t.order.length

/-- One round of `check_no_cycles` is one of the library's. -/
theorem Follows.round {b : DataflowGraphBuilder U} {s : CycleState}
    {t : TopologicalSort.State OperatorId} (h : b.Follows s t) (hne : s.queue ≠ []) :
    ∃ s', b.cycleRound s = some (.next s') ∧
      b.Follows s' (TopologicalSort.round (endpoints b.edges) t) := by
  have hne' : t.queue ≠ [] := h.queue ▸ hne
  obtain ⟨hinv, hlen⟩ := h.inv.round hne'
  cases hqueue : t.queue with
  | nil => exact absurd hqueue hne'
  | cons id queue =>
    have hround : TopologicalSort.round (endpoints b.edges) t =
        (targets (endpoints b.edges) id).foldl TopologicalSort.visit
          { t with queue, order := t.order ++ [id] } := by
      rw [TopologicalSort.round, hqueue]
    obtain ⟨s', hs', hvisited, hdegree, hqueue'⟩ := @foldlM_visit (b.adjacency id)
      { s with queue, visited := s.visited + 1 } { t with queue, order := t.order ++ [id] }
      h.inDegree rfl (fun v => b.adjacency_eq id ▸ h.inv.count_le hqueue v)
    rw [adjacency_eq, ← hround] at hdegree hqueue'
    refine ⟨s', ?_, hinv, hdegree, hqueue', ?_⟩
    · rw [cycleRound, h.queue, hqueue]
      show ((b.adjacency id).foldlM visit _).bind _ = _
      rw [hs']
      rfl
    · rw [hvisited, hlen, h.visited]

/-- The whole loop. -/
theorem run_cycleRound {b : DataflowGraphBuilder U} (hids : b.ids.Nodup)
    {inDegree : OperatorId → Int} (hdegree : ∀ id, inDegree id = b.edges.countP fun e => e.target = id)
    (fuel : Nat) : Option.Rel b.Follows
      (While.run (fun s : CycleState => !s.queue.isEmpty) b.cycleRound fuel
        ⟨inDegree, b.ids.filter fun id => inDegree id = 0, 0⟩)
      (TopologicalSort.sort fuel (endpoints b.edges) b.ids) := by
  have hstart : b.Follows ⟨inDegree, b.ids.filter fun id => inDegree id = 0, 0⟩
      ⟨remaining (endpoints b.edges) [], TopologicalSort.roots (endpoints b.edges) b.ids, []⟩ := by
    refine ⟨Inv.start hids, fun id => ?_, ?_, rfl⟩
    · show inDegree id = remaining (endpoints b.edges) [] id
      rw [remaining_endpoints]
      exact hdegree id
    · refine List.filter_congr fun id _ => ?_
      simp only [remaining_endpoints, hdegree, Int.natCast_eq_zero]
  refine While.run_rel (R := b.Follows) (fun s t h => by rw [h.queue]) (fun s t h hne => ?_) fuel hstart
  obtain ⟨s', hs', hfollows⟩ := h.round (by simpa using hne)
  rw [hs']
  exact .some (.next hfollows)

/-- The result, after the loop. -/
def cycleResult (b : DataflowGraphBuilder U) (visited : Nat) : ValidationResult :=
  if visited ≠ b.nodes.length then .error "graph contains a cycle" else .ok

theorem checkNoCycles_iff {b : DataflowGraphBuilder U} {fuel : Nat} {result : ValidationResult} :
    b.checkNoCycles fuel = some result ↔ ∃ inDegree s,
      b.edges.foldlM countEdge (fun _ => 0) = some inDegree ∧
      While.run (fun s : CycleState => !s.queue.isEmpty) b.cycleRound fuel
        ⟨inDegree, b.ids.filter fun id => inDegree id = 0, 0⟩ = some s ∧
      b.cycleResult s.visited = result := by
  have hresult : ∀ s : CycleState, (if s.visited ≠ b.nodes.length then
      some (ValidationResult.error "graph contains a cycle") else some .ok) =
      some (b.cycleResult s.visited) := by
    intro s
    unfold cycleResult
    split <;> rfl
  unfold checkNoCycles
  rw [Option.bind_eq_bind, Option.bind_eq_some_iff]
  constructor
  · rintro ⟨inDegree, hdegree, h⟩
    obtain ⟨s, hs, h⟩ := Option.bind_eq_some_iff.mp h
    exact ⟨inDegree, s, hdegree, hs, Option.some.inj ((hresult s).symm.trans h)⟩
  · rintro ⟨inDegree, s, hdegree, hs, rfl⟩
    refine ⟨inDegree, hdegree, Option.bind_eq_some_iff.mpr ⟨s, hs, hresult s⟩⟩

/-- What `check_no_cycles` returns: it counts the vertices of an order. -/
theorem checkNoCycles_spec {b : DataflowGraphBuilder U} (hids : b.ids.Nodup) : ∃ order,
    Orders (endpoints b.edges) b.ids order ∧
      (∀ fuel result, b.checkNoCycles fuel = some result →
        result = b.cycleResult order.length) ∧
      ((∀ id, (b.edges.countP fun e => e.target = id) < 2 ^ 31) →
        ∀ fuel, b.nodes.length + b.edges.length ≤ fuel →
          ∃ result, b.checkNoCycles fuel = some result) := by
  obtain ⟨t, ht, hinv, horders⟩ := TopologicalSort.exists_sort (endpoints b.edges) hids
  have hzero : ∀ id : OperatorId, (0 : Int) ≤ intMax := fun _ => by rw [intMax]; omega
  refine ⟨t.order, horders, fun fuel result hresult => ?_, fun hfit fuel hfuel => ?_⟩
  · obtain ⟨inDegree, s, hdegree, hs, rfl⟩ := checkNoCycles_iff.mp hresult
    obtain ⟨-, rfl⟩ := (foldlM_countEdge hzero).mp hdegree
    have hrel := run_cycleRound hids (fun id => Int.zero_add _) fuel
    rw [hs] at hrel
    obtain ⟨t', hsort, hfollows⟩ := While.rel_some_left hrel
    obtain rfl : t = t' := While.run_unique (ht _ (Nat.le_refl _)) hsort
    rw [hfollows.visited]
  · have hcount : ∀ id, (0 : Int) + b.edges.countP (fun e => e.target = id) ≤ intMax := by
      intro id
      have hlt := hfit id
      rw [intMax]
      omega
    have hbound : t.order.length ≤ b.nodes.length + b.edges.length := by
      have hle := hinv.length_le
      rw [List.length_append, length_endpoints, ids, List.length_map] at hle
      omega
    have hrel := run_cycleRound hids (fun id => Int.zero_add _) fuel
    rw [ht fuel (hbound.trans hfuel)] at hrel
    obtain ⟨s, hs, -⟩ := While.rel_some_right hrel
    exact ⟨_, checkNoCycles_iff.mpr ⟨_, s, (foldlM_countEdge hzero).mpr ⟨hcount, rfl⟩, hs, rfl⟩⟩

/-! ## The edges -/

theorem checkEdgesFrom_isOk {known : List OperatorId} {edges : List StreamEdge} :
    (checkEdgesFrom known edges).isOk = true ↔
      ∀ e ∈ edges, e.source ∈ known ∧ e.target ∈ known := by
  induction edges with
  | nil => exact iff_of_true rfl (List.forall_mem_nil _)
  | cons e edges ih =>
    rw [checkEdgesFrom, List.forall_mem_cons, ← ih]
    by_cases hsource : e.source ∈ known
    · by_cases htarget : e.target ∈ known
      · simp [hsource, htarget]
      · simp [hsource, htarget, ValidationResult.error]
    · simp [hsource, ValidationResult.error]

/-- Whatever goes wrong is one of the edges. -/
theorem checkEdgesFrom_message (known : List OperatorId) (edges : List StreamEdge) :
    checkEdgesFrom known edges = .ok ∨
      (checkEdgesFrom known edges = .error "edge references unknown source operator" ∧
        ∃ e ∈ edges, e.source ∉ known) ∨
      (checkEdgesFrom known edges = .error "edge references unknown target operator" ∧
        ∃ e ∈ edges, e.source ∈ known ∧ e.target ∉ known) := by
  induction edges with
  | nil => exact Or.inl rfl
  | cons e edges ih =>
    rw [checkEdgesFrom]
    by_cases hsource : e.source ∈ known
    · rw [if_neg (not_not_intro hsource)]
      by_cases htarget : e.target ∈ known
      · rw [if_neg (not_not_intro htarget)]
        rcases ih with h | ⟨h, e', he', hout⟩ | ⟨h, e', he', hout⟩
        · exact Or.inl h
        · exact Or.inr (Or.inl ⟨h, e', List.mem_cons_of_mem _ he', hout⟩)
        · exact Or.inr (Or.inr ⟨h, e', List.mem_cons_of_mem _ he', hout⟩)
      · rw [if_pos htarget]
        exact Or.inr (Or.inr ⟨rfl, e, List.mem_cons_self, hsource, htarget⟩)
    · rw [if_pos hsource]
      exact Or.inr (Or.inl ⟨rfl, e, List.mem_cons_self, hsource⟩)

/-! ## The two checks together -/

/-- What `validate` returns, after `check_no_cycles`. -/
def verdict (b : DataflowGraphBuilder U) (cycles : ValidationResult) : ValidationResult :=
  if b.nodes.isEmpty then .error "graph has no operators"
  else if !cycles.isOk then cycles
  else if !b.checkEdges.isOk then b.checkEdges
  else .ok

theorem validate_of_checkNoCycles {b : DataflowGraphBuilder U} {fuel : Nat}
    {cycles : ValidationResult} (h : b.checkNoCycles fuel = some cycles) :
    b.validate fuel = some (b.verdict cycles) := by
  unfold validate verdict
  by_cases hempty : b.nodes.isEmpty = true
  · rw [if_pos hempty, if_pos hempty]
  · rw [if_neg hempty, if_neg hempty, h]
    show (if _ then some _ else if _ then some _ else some _) = _
    split
    · rfl
    · split <;> rfl

/-- The two checks together accept the well-formed builders. -/
theorem verdict_isOk_iff {b : DataflowGraphBuilder U} (hids : b.ids.Nodup) {order : List OperatorId}
    (h : Orders (endpoints b.edges) b.ids order) :
    (b.verdict (b.cycleResult order.length)).isOk = true ↔ b.WellFormed := by
  unfold verdict
  by_cases hempty : b.nodes = []
  · rw [if_pos (by rw [hempty]; rfl)]
    exact iff_of_false (by decide) fun hw => hw.nonempty hempty
  · rw [if_neg (by simpa using hempty)]
    have hlength : (∀ e ∈ b.edges, e.source ∈ b.ids ∧ e.target ∈ b.ids) →
        (order.length = b.nodes.length ↔
          ∀ id, ¬ Relation.TransGen (HasEdge b.edges) id id) := by
      intro hknown
      rw [← edge_endpoints, ← h.length_iff hids (known_endpoints hknown), ids, List.length_map]
    have hwell : b.WellFormed ↔ b.checkEdges.isOk = true ∧ order.length = b.nodes.length := by
      rw [checkEdges, checkEdgesFrom_isOk]
      constructor
      · exact fun hw => ⟨hw.known, (hlength hw.known).mpr hw.acyclic⟩
      · exact fun ⟨hknown, hlen⟩ => ⟨hempty, hknown, (hlength hknown).mp hlen⟩
    rw [hwell]
    by_cases hlen : order.length = b.nodes.length
    · rw [cycleResult, if_neg (not_not_intro hlen), if_neg (by decide)]
      cases hedges : b.checkEdges.isOk with
      | true => exact iff_of_true rfl ⟨rfl, hlen⟩
      | false =>
        rw [if_pos (by decide), hedges]
        exact iff_of_false (by decide) fun hok => absurd hok.1 (by decide)
    · rw [cycleResult, if_pos hlen, if_pos (by decide)]
      exact iff_of_false (by decide) fun hok => hlen hok.2

theorem verdict_of_isOk {b : DataflowGraphBuilder U} {cycles : ValidationResult}
    (h : (b.verdict cycles).isOk = true) : b.verdict cycles = .ok := by
  unfold verdict at h ⊢
  split
  · rename_i hempty
    rw [if_pos hempty] at h
    cases h
  · rename_i hempty
    rw [if_neg hempty] at h
    split
    · rename_i hcycles
      rw [if_pos hcycles] at h
      simp [h] at hcycles
    · rename_i hcycles
      rw [if_neg hcycles] at h
      split
      · rename_i hedges
        rw [if_pos hedges] at h
        simp [h] at hedges
      · rfl

/-- A well-formed builder is valid, if the in-degrees fit into an `int`. -/
theorem WellFormed.validate_eq {b : DataflowGraphBuilder U} (h : b.WellFormed) (hids : b.ids.Nodup)
    (hfit : ∀ id, (b.edges.countP fun e => e.target = id) < 2 ^ 31) {fuel : Nat}
    (hfuel : b.nodes.length + b.edges.length ≤ fuel) : b.validate fuel = some .ok := by
  obtain ⟨order, horders, hspec, hends⟩ := checkNoCycles_spec hids
  obtain ⟨cycles, hcycles⟩ := hends hfit fuel hfuel
  obtain rfl := hspec fuel cycles hcycles
  rw [validate_of_checkNoCycles hcycles,
    verdict_of_isOk ((verdict_isOk_iff hids horders).mpr h)]

theorem WellFormed.build_eq {b : DataflowGraphBuilder U} (h : b.WellFormed) (hids : b.ids.Nodup)
    (hfit : ∀ id, (b.edges.countP fun e => e.target = id) < 2 ^ 31) {fuel : Nat}
    (hfuel : b.nodes.length + b.edges.length ≤ fuel) : b.build fuel = some b.graph := by
  rw [build, h.validate_eq hids hfit hfuel]
  rfl

/-- A builder that `validate` accepts is well-formed, however many edges it has. -/
theorem WellFormed.of_validate {b : DataflowGraphBuilder U} (hids : b.ids.Nodup) {fuel : Nat}
    {result : ValidationResult} (h : b.validate fuel = some result) (hok : result.isOk = true) :
    b.WellFormed := by
  obtain ⟨order, horders, hspec, -⟩ := checkNoCycles_spec hids
  cases hcycles : b.checkNoCycles fuel with
  | none =>
    by_cases hempty : b.nodes.isEmpty = true
    · rw [validate, if_pos hempty] at h
      cases h
      cases hok
    · rw [validate, if_neg hempty, hcycles] at h
      cases h
  | some cycles =>
    obtain rfl := hspec fuel cycles hcycles
    rw [validate_of_checkNoCycles hcycles] at h
    cases h
    exact (verdict_isOk_iff hids horders).mp hok

/-- **`validate` accepts exactly the well-formed builders.** -/
theorem validate_iff (b : DataflowGraphBuilder U) (hids : (b.nodes.map (·.id)).Nodup)
    (hedges : b.edges.length < 2 ^ 31) : ∃ result,
      (∀ fuel, b.nodes.length + b.edges.length ≤ fuel → b.validate fuel = some result) ∧
      (result.isOk = true ↔ b.WellFormed) := by
  obtain ⟨order, horders, hspec, hends⟩ := checkNoCycles_spec hids
  refine ⟨b.verdict (b.cycleResult order.length), fun fuel hfuel => ?_,
    verdict_isOk_iff hids horders⟩
  obtain ⟨cycles, hcycles⟩ := hends (fun id => List.countP_le_length.trans_lt hedges) fuel hfuel
  obtain rfl := hspec fuel cycles hcycles
  exact validate_of_checkNoCycles hcycles

end DataflowGraphBuilder

/-- A source, a map and a filter behind it, and a sink behind both, with two edges from the
filter. -/
def diamond : DataflowGraphBuilder Unit where
  counter := 5
  edgeCounter := 5
  nodes :=
    [⟨⟨1⟩, "source", 1, .source { func := fun s => (none, s), captured := () }⟩,
      ⟨⟨2⟩, "map", 1, .map ⟨fun s e => (e, s), ()⟩⟩,
      ⟨⟨3⟩, "filter", 1, .filter ⟨fun s e => ((true, e), s), ()⟩⟩,
      ⟨⟨4⟩, "sink", 1, .sink ⟨fun s _ => s, ()⟩⟩]
  edges := [⟨⟨0⟩, ⟨3⟩, ⟨4⟩, .forward⟩, ⟨⟨1⟩, ⟨1⟩, ⟨2⟩, .forward⟩, ⟨⟨2⟩, ⟨1⟩, ⟨3⟩, .forward⟩,
    ⟨⟨3⟩, ⟨2⟩, ⟨4⟩, .forward⟩, ⟨⟨4⟩, ⟨3⟩, ⟨4⟩, .forward⟩]

theorem validate_iff_diamond : ∃ result,
    (∀ fuel, 9 ≤ fuel → diamond.validate fuel = some result) ∧
      (result.isOk = true ↔ diamond.WellFormed) :=
  DataflowGraphBuilder.validate_iff diamond (by decide) (by decide)

/-! ## The order of a valid graph -/

namespace DataflowGraph

/-- `validate` accepts the builder of the graph. -/
def Validates (g : DataflowGraph U) : Prop :=
  ∃ (b : DataflowGraphBuilder U) (fuel : Nat), b.graph = g ∧ b.validate fuel = some .ok

theorem Validates.wellFormed {g : DataflowGraph U} (h : g.Validates)
    (hids : (g.operators.map (·.id)).Nodup) : g.operators ≠ [] ∧
      (∀ e ∈ g.edges, e.source ∈ g.operators.map (·.id) ∧ e.target ∈ g.operators.map (·.id)) ∧
      ∀ id, ¬ Relation.TransGen (HasEdge g.edges) id id := by
  obtain ⟨b, fuel, rfl, hvalid⟩ := h
  have heq : b.graph.operators.map (·.id) = b.ids := List.map_map
  rw [heq] at hids ⊢
  have hw := DataflowGraphBuilder.WellFormed.of_validate hids hvalid rfl
  exact ⟨fun hnil => hw.nonempty (List.map_eq_nil_iff.mp hnil), hw.known, hw.acyclic⟩

/-- **`topological_order` is a linear extension** of a valid graph, whatever the iteration order of
the map. What lies on a cycle or behind one is never in it. -/
theorem topologicalOrder_extends (g : DataflowGraph U) (hids : (g.operators.map (·.id)).Nodup)
    {keys : List OperatorId} (hkeys : keys.Perm g.inDegreeKeys) : ∃ order,
      (∀ fuel, g.operators.length + g.edges.length ≤ fuel →
        g.topologicalOrder fuel keys = some order) ∧
      (g.Validates → order.Perm (g.operators.map (·.id)) ∧
        (∀ e ∈ g.edges, ∀ before after, order = before ++ e.target :: after → e.source ∈ before) ∧
        ∃ first rest, order = first :: rest ∧ g.inDegreeOf first = 0) ∧
      ∀ u v, Relation.TransGen (HasEdge g.edges) u u → Relation.ReflTransGen (HasEdge g.edges) u v →
        v ∉ order := by
  obtain ⟨order, hends, horders⟩ := g.exists_topologicalOrder hkeys
  refine ⟨order, hends, fun hvalid => ?_, fun u v hcycle hbehind hv => ?_⟩
  · obtain ⟨hne, hknown, hacyclic⟩ := hvalid.wellFormed hids
    obtain ⟨hperm, hfirst⟩ := g.orders_complete hids hne hknown hacyclic horders
    refine ⟨hperm, fun e he before after heq => ?_, hfirst⟩
    refine horders.sorted before e.target after heq e.source ?_
    rw [edge_endpoints]
    exact ⟨e, he, rfl, rfl⟩
  · rw [← edge_endpoints] at hcycle hbehind
    exact horders.not_behind_cycle hv hbehind hcycle

theorem topologicalOrder_extends_diamond : ∃ order,
    (∀ fuel, 9 ≤ fuel →
      diamond.graph.topologicalOrder fuel [⟨4⟩, ⟨2⟩, ⟨3⟩, ⟨1⟩] = some order) ∧
      order.Perm [⟨1⟩, ⟨2⟩, ⟨3⟩, ⟨4⟩] ∧
      (∀ e ∈ diamond.edges, ∀ before after,
        order = before ++ e.target :: after → e.source ∈ before) ∧
      ∃ first rest, order = first :: rest ∧ diamond.graph.inDegreeOf first = 0 := by
  obtain ⟨order, hends, hvalid, -⟩ :=
    @topologicalOrder_extends Unit diamond.graph (by decide) [⟨4⟩, ⟨2⟩, ⟨3⟩, ⟨1⟩] (by decide)
  exact ⟨order, hends, hvalid ⟨diamond, 9, rfl, by decide +kernel⟩⟩

end DataflowGraph

end Xtream
