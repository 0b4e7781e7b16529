import Xtream.Graph.Linear
import Xtream.Graph.Validation

/-!
# Graphs from the fluent API

Every operator gets the next id, and an edge leads to it from the operator of the handle. Without
joins the graph is a forest (`Forest`): the sources are its roots, and an edge leads to every other
operator, from an operator with a smaller id.

* `Fluent.forest`: the builders that the fluent API reaches are forests;
* `Forest.build_eq`: the graph of a forest is valid;
* `linear_line`, `Line.isPath`: a source with one call after the other behind it is a linear graph.
-/

namespace Xtream

variable {U : Type}

/-! ## The calls -/

/-- A call that adds one operator behind a handle. -/
inductive HandleCall (U : Type)
  | map (func : U → Event Record → Event Record × U) (captured : U)
  | filter (func : U → Event Record → (Bool × Event Record) × U) (captured : U)
  | reduce (spec : WindowSpec) (func : U → List (Event Record) → Event Record × U) (captured : U)
  | aggregate (spec : WindowSpec) (func : U → List (Event Record) → Event Record × U) (captured : U)
  | sink (func : U → Event Record → U) (captured : U)

namespace HandleCall

def apply : HandleCall U → StreamHandle → DataflowGraphBuilder U →
    Option (StreamHandle × DataflowGraphBuilder U)
  | map func captured, h, b => h.map func captured b
  | filter func captured, h, b => h.filter func captured b
  | reduce spec func captured, h, b => (h.window spec).reduce func captured b
  | aggregate spec func captured, h, b => (h.window spec).aggregate func captured b
  | sink func captured, h, b => h.sink func captured b

def name : HandleCall U → String
  | map _ _ => "map"
  | filter _ _ => "filter"
  | reduce _ _ _ => "window"
  | aggregate _ _ _ => "window"
  | sink _ _ => "sink"

def impl : HandleCall U → LogicalImpl U
  | map func captured => .map ⟨func, captured⟩
  | filter func captured => .filter ⟨func, captured⟩
  | reduce spec func captured => .window ⟨spec, func, captured⟩
  | aggregate spec func captured => .window ⟨spec, func, captured⟩
  | sink func captured => .sink ⟨func, captured⟩

theorem apply_eq (call : HandleCall U) (h : StreamHandle) (b : DataflowGraphBuilder U) :
    call.apply h b = h.connect call.name call.impl b := by
  cases call <;> rfl

theorem impl_isSource (call : HandleCall U) : call.impl.isSource = false := by
  cases call <;> rfl

theorem impl_compile (call : HandleCall U) : call.impl.compile.isSome = true := by
  cases call <;> rfl

end HandleCall

/-- The builders that the fluent API reaches without joins. A handle has been returned for each
node. -/
inductive Fluent : DataflowGraphBuilder U → Prop
  | new : Fluent {}
  | source {b : DataflowGraphBuilder U} {func : U → Option (Event Record) × U} {captured : U}
      {r : StreamHandle × DataflowGraphBuilder U} :
      Fluent b → b.source func captured = some r → Fluent r.2
  | call {b : DataflowGraphBuilder U} {call : HandleCall U} {h : StreamHandle}
      {r : StreamHandle × DataflowGraphBuilder U} :
      Fluent b → h.id ∈ b.ids → call.apply h b = some r → Fluent r.2
  | withWatermark {b : DataflowGraphBuilder U} {h : StreamHandle} {lateness : UInt64}
      {r : StreamHandle × DataflowGraphBuilder U} :
      Fluent b → h.id ∈ b.ids → h.withWatermark lateness b = some r → Fluent r.2

/-! ## What the calls do -/

theorem DataflowGraphBuilder.source_eq_some {b : DataflowGraphBuilder U}
    {func : U → Option (Event Record) × U} {captured : U}
    {r : StreamHandle × DataflowGraphBuilder U} : b.source func captured = some r ↔
      b.nodes.length < maxSize ∧ r = (⟨⟨b.counter⟩⟩, { b with
        counter := b.counter + 1
        nodes := b.nodes ++ [⟨⟨b.counter⟩, "source", 1, .source { func, captured }⟩] }) := by
  unfold source addNode pushBack
  by_cases hn : b.nodes.length < maxSize
  · simp [nextId, hn, eq_comm]
  · simp [nextId, hn]

theorem StreamHandle.connect_eq_some {h : StreamHandle} {name : String} {op : LogicalImpl U}
    {b : DataflowGraphBuilder U} {r : StreamHandle × DataflowGraphBuilder U} :
    h.connect name op b = some r ↔
      (b.nodes.length < maxSize ∧ b.edges.length < maxSize) ∧ r = (⟨⟨b.counter⟩⟩, {
        counter := b.counter + 1
        edgeCounter := b.edgeCounter + 1
        nodes := b.nodes ++ [⟨⟨b.counter⟩, name, 1, op⟩]
        edges := b.edges ++ [⟨⟨b.edgeCounter⟩, h.id, ⟨b.counter⟩, .forward⟩] }) := by
  unfold connect DataflowGraphBuilder.addNode DataflowGraphBuilder.addEdge pushBack
  by_cases hn : b.nodes.length < maxSize
  · by_cases he : b.edges.length < maxSize
    · simp [DataflowGraphBuilder.nextId, hn, he, eq_comm]
    · simp [DataflowGraphBuilder.nextId, hn, he]
  · simp [DataflowGraphBuilder.nextId, hn]

/-- The lateness of one source changes. -/
theorem DataflowGraphBuilder.setLateness_eq_some {id : OperatorId} {lateness : UInt64}
    {nodes nodes' : List (StreamNode U)} (h : setLateness id lateness nodes = some nodes') :
    ∃ before node op after, nodes = before ++ node :: after ∧ node.op = .source op ∧
      nodes' = before ++
        { node with op := .source { op with allowedLateness := lateness } } :: after := by
  induction nodes generalizing nodes' with
  | nil => cases h
  | cons node nodes ih =>
    rw [setLateness] at h
    split at h
    · obtain ⟨rest, hrest, rfl⟩ := Option.map_eq_some_iff.mp h
      obtain ⟨before, node', op, after, rfl, hop, rfl⟩ := ih hrest
      exact ⟨node :: before, node', op, after, rfl, hop, rfl⟩
    · split at h
      · rename_i op hop
        cases h
        exact ⟨[], node, op, nodes, rfl, hop, rfl⟩
      · cases h

theorem StreamHandle.withWatermark_eq_some {h : StreamHandle} {lateness : UInt64}
    {b : DataflowGraphBuilder U} {r : StreamHandle × DataflowGraphBuilder U}
    (heq : h.withWatermark lateness b = some r) : ∃ nodes,
      DataflowGraphBuilder.setLateness h.id lateness b.nodes = some nodes ∧
        r = (h, { b with nodes }) := by
  obtain ⟨b', hb', heq⟩ := Option.bind_eq_some_iff.mp heq
  obtain ⟨nodes, hnodes, hb'⟩ := Option.bind_eq_some_iff.mp hb'
  cases hb'
  cases heq
  exact ⟨nodes, hnodes, rfl⟩

/-! ## Forests -/

/-- What the calls keep. -/
structure Forest (b : DataflowGraphBuilder U) : Prop where
  counter : b.counter.toNat = b.nodes.length + 1
  size : b.nodes.length ≤ maxSize
  fresh : ∀ id ∈ b.ids, id.raw.toNat < b.counter.toNat
  nodup : b.ids.Nodup
  targets : (b.edges.map (·.target)).Nodup
  edges : ∀ e ∈ b.edges, e.source ∈ b.ids ∧ e.target ∈ b.ids ∧
    e.source.raw.toNat < e.target.raw.toNat
  roots : ∀ node ∈ b.nodes, node.op.isSource = true ↔ node.id ∉ b.edges.map (·.target)
  compiles : ∀ node ∈ b.nodes, node.op.compile.isSome = true

namespace Forest

variable {b : DataflowGraphBuilder U}

theorem new : Forest ({} : DataflowGraphBuilder U) where
  counter := rfl
  size := Nat.zero_le _
  fresh := List.forall_mem_nil _
  nodup := List.nodup_nil
  targets := List.nodup_nil
  edges := List.forall_mem_nil _
  roots := List.forall_mem_nil _
  compiles := List.forall_mem_nil _

/-- A new operator, a source, or one with an edge from an older operator. -/
theorem extend (h : Forest b) (hlen : b.nodes.length < maxSize) {node : StreamNode U}
    (hid : node.id = ⟨b.counter⟩) (hcompile : node.op.compile.isSome = true)
    {new : List StreamEdge} {edgeCounter : UInt64} (hsource : ∀ e ∈ new, e.source ∈ b.ids)
    (htarget : new.map (·.target) = if node.op.isSource then [] else [node.id]) :
    Forest ⟨b.counter + 1, edgeCounter, b.nodes ++ [node], b.edges ++ new⟩ := by
  have hcounter : (b.counter + 1).toNat = b.counter.toNat + 1 := by
    rw [toNat_add_of_lt (by rw [h.counter]; unfold maxSize at hlen; simp; omega)]
    rfl
  have hids : (DataflowGraphBuilder.mk (b.counter + 1) edgeCounter (b.nodes ++ [node])
      (b.edges ++ new)).ids = b.ids ++ [node.id] := List.map_append
  have hfresh : node.id ∉ b.ids := fun hin => by
    have hlt := h.fresh node.id hin
    rw [hid] at hlt
    exact Nat.lt_irrefl _ hlt
  have htargets : ∀ id ∈ b.edges.map (·.target), id ∈ b.ids := by
    intro id hin
    obtain ⟨e, he, rfl⟩ := List.mem_map.mp hin
    exact (h.edges e he).2.1
  have hnew : ∀ e ∈ new, e.target = node.id := by
    intro e he
    have hin : e.target ∈ new.map (·.target) := List.mem_map_of_mem he
    rw [htarget] at hin
    split at hin
    · cases hin
    · exact List.mem_singleton.mp hin
  constructor
  case counter =>
    simp [hcounter, h.counter]
  case size =>
    simpa using hlen
  case fresh =>
    intro id hin
    rw [hids] at hin
    show id.raw.toNat < (b.counter + 1).toNat
    rw [hcounter]
    rcases List.mem_append.mp hin with hin | hin
    · exact Nat.lt_succ_of_lt (h.fresh id hin)
    · rw [List.mem_singleton.mp hin, hid]
      exact Nat.lt_succ_self _
  case nodup =>
    rw [hids]
    refine List.nodup_append.mpr ⟨h.nodup, List.nodup_singleton _, fun x hx y hy hxy => ?_⟩
    rw [List.mem_singleton.mp hy] at hxy
    exact hfresh (hxy ▸ hx)
  case targets =>
    show ((b.edges ++ new).map (·.target)).Nodup
    rw [List.map_append, htarget]
    refine List.nodup_append.mpr ⟨h.targets, ?_, fun x hx y hy hxy => ?_⟩
    · split
      · exact List.nodup_nil
      · exact List.nodup_singleton _
    · split at hy
      · cases hy
      · rw [List.mem_singleton.mp hy] at hxy
        exact hfresh (hxy ▸ htargets x hx)
  case edges =>
    intro e he
    rw [hids]
    rcases List.mem_append.mp he with he | he
    · obtain ⟨hs, ht, hlt⟩ := h.edges e he
      exact ⟨List.mem_append_left _ hs, List.mem_append_left _ ht, hlt⟩
    · have hs := hsource e he
      refine ⟨List.mem_append_left _ hs, ?_, ?_⟩
      · rw [hnew e he]
        exact List.mem_append_right _ List.mem_cons_self
      · rw [hnew e he, hid]
        exact h.fresh _ hs
  case roots =>
    intro n hn
    show n.op.isSource = true ↔ n.id ∉ (b.edges ++ new).map (·.target)
    rw [List.map_append, List.mem_append, not_or, htarget]
    rcases List.mem_append.mp hn with hn | hn
    · have hne : n.id ≠ node.id := fun heq => hfresh (heq ▸ List.mem_map_of_mem hn)
      rw [h.roots n hn]
      refine ⟨fun hout => ⟨hout, ?_⟩, And.left⟩
      split
      · exact List.not_mem_nil
      · exact fun hin => hne (List.mem_singleton.mp hin)
    · obtain rfl := List.mem_singleton.mp hn
      cases hop : n.op.isSource with
      | true => exact iff_of_true rfl ⟨fun hin => hfresh (htargets _ hin), List.not_mem_nil⟩
      | false => exact iff_of_false (by simp) fun hout => hout.2 (by simp)
  case compiles =>
    intro n hn
    rcases List.mem_append.mp hn with hn | hn
    · exact h.compiles n hn
    · rw [List.mem_singleton.mp hn]
      exact hcompile

/-- A source with another lateness is as good. -/
theorem setLateness (h : Forest b) {id : OperatorId} {lateness : UInt64}
    {nodes : List (StreamNode U)}
    (hnodes : DataflowGraphBuilder.setLateness id lateness b.nodes = some nodes) :
    Forest { b with nodes } := by
  obtain ⟨before, node, op, after, hb, hop, rfl⟩ :=
    DataflowGraphBuilder.setLateness_eq_some hnodes
  have hids : DataflowGraphBuilder.ids { b with nodes := before ++
      { node with op := .source { op with allowedLateness := lateness } } :: after } = b.ids := by
    simp [DataflowGraphBuilder.ids, hb]
  have hlen : (before ++ { node with op := .source { op with allowedLateness := lateness } } ::
      after).length = b.nodes.length := by
    simp [hb]
  have hnode : node ∈ b.nodes := by simp [hb]
  have hother : ∀ n, n ∈ before ∨ n ∈ after → n ∈ b.nodes := by
    rintro n (hn | hn)
    · simp [hb, hn]
    · simp [hb, hn]
  refine ⟨?_, ?_, ?_, ?_, h.targets, ?_, fun n hn => ?_, fun n hn => ?_⟩
  · rw [hlen]
    exact h.counter
  · rw [hlen]
    exact h.size
  · rw [hids]
    exact h.fresh
  · rw [hids]
    exact h.nodup
  · rw [hids]
    exact h.edges
  · rcases List.mem_append.mp hn with hn | hn
    · exact h.roots n (hother n (Or.inl hn))
    · rcases List.mem_cons.mp hn with rfl | hn
      · rw [← h.roots node hnode, hop]
        exact Iff.rfl
      · exact h.roots n (hother n (Or.inr hn))
  · rcases List.mem_append.mp hn with hn | hn
    · exact h.compiles n (hother n (Or.inl hn))
    · rcases List.mem_cons.mp hn with rfl | hn
      · rfl
      · exact h.compiles n (hother n (Or.inr hn))

end Forest

/-- The builders that the fluent API reaches are forests. -/
theorem Fluent.forest {b : DataflowGraphBuilder U} (h : Fluent b) : Forest b := by
  induction h with
  | new => exact .new
  | @source b func captured r _ heq ih =>
    obtain ⟨hlen, rfl⟩ := DataflowGraphBuilder.source_eq_some.mp heq
    have hext := @Forest.extend U b ih hlen
      ⟨⟨b.counter⟩, "source", 1, .source { func, captured }⟩ rfl rfl [] b.edgeCounter
      (List.forall_mem_nil _) rfl
    rw [List.append_nil] at hext
    exact hext
  | @call b call h r _ hh heq ih =>
    rw [HandleCall.apply_eq] at heq
    obtain ⟨⟨hlen, -⟩, rfl⟩ := StreamHandle.connect_eq_some.mp heq
    exact ih.extend hlen rfl call.impl_compile (by simpa using hh) (by simp [call.impl_isSource])
  | withWatermark _ hh heq ih =>
    obtain ⟨nodes, hnodes, rfl⟩ := StreamHandle.withWatermark_eq_some heq
    exact ih.setLateness hnodes

/-! ## The graph of a forest -/

namespace Forest

variable {b : DataflowGraphBuilder U}

theorem acyclic (h : Forest b) (id : OperatorId) : ¬ Relation.TransGen (HasEdge b.edges) id id :=
  acyclic_of_ascending (fun e he => (h.edges e he).2.2) id

theorem known (h : Forest b) : ∀ e ∈ b.edges, e.source ∈ b.ids ∧ e.target ∈ b.ids :=
  fun e he => ⟨(h.edges e he).1, (h.edges e he).2.1⟩

/-- At most one edge leads to an operator. -/
theorem inDegree_le_one (h : Forest b) (id : OperatorId) :
    (b.edges.countP fun e => e.target = id) ≤ 1 := by
  have hcount := List.nodup_iff_count_le_one.mp h.targets id
  rw [List.count, List.countP_map] at hcount
  refine le_of_eq_of_le (List.countP_congr fun e _ => ?_) hcount
  simp

/-- The graph of a forest is valid, when it has an operator. -/
theorem build_eq (h : Forest b) (hne : b.nodes ≠ []) {fuel : Nat}
    (hfuel : b.nodes.length + b.edges.length ≤ fuel) : b.build fuel = some b.graph := by
  have hw : b.WellFormed := ⟨hne, h.known, h.acyclic⟩
  exact hw.build_eq h.nodup (fun id => (h.inDegree_le_one id).trans_lt (by decide)) hfuel

end Forest

/-- What `build` returns is the graph of the builder, which has an operator. -/
theorem DataflowGraphBuilder.build_eq_some {b : DataflowGraphBuilder U} {fuel : Nat}
    {g : DataflowGraph U} (h : b.build fuel = some g) : g = b.graph ∧ b.nodes ≠ [] := by
  obtain ⟨result, hresult, h⟩ := Option.bind_eq_some_iff.mp h
  split at h
  · rename_i hok
    refine ⟨(Option.some.inj h).symm, fun hnil => ?_⟩
    rw [validate, if_pos (by rw [hnil]; rfl)] at hresult
    cases hresult
    cases hok
  · cases h

theorem DataflowGraphBuilder.graph_ids (b : DataflowGraphBuilder U) :
    b.graph.operators.map (·.id) = b.ids := List.map_map

/-! ## Linear graphs -/

/-- A source, perhaps with a lateness, and one call after the other, each on the handle of the last
one. -/
def linear (func : U → Option (Event Record) × U) (captured : U) (lateness : Option UInt64)
    (calls : List (HandleCall U)) : Option (StreamHandle × DataflowGraphBuilder U) := do
  let r ← DataflowGraphBuilder.source func captured {}
  let r ← match lateness with
    | none => some r
    | some lateness => r.1.withWatermark lateness r.2
  calls.foldlM (fun r call => call.apply r.1 r.2) r

/-- The builder holds a line of operators, and the handle is the last one. -/
structure Line (impls : List (LogicalImpl U)) (h : StreamHandle) (b : DataflowGraphBuilder U) :
    Prop where
  fluent : Fluent b
  impls : b.nodes.map (·.op) = impls
  edges : endpoints b.edges = consecutive b.ids
  last : b.ids.getLast? = some h.id

theorem Line.call {impls : List (LogicalImpl U)} {h : StreamHandle} {b : DataflowGraphBuilder U}
    (hline : Line impls h b) {call : HandleCall U} {r : StreamHandle × DataflowGraphBuilder U}
    (heq : call.apply h b = some r) : Line (impls ++ [call.impl]) r.1 r.2 := by
  have hh : h.id ∈ b.ids := List.mem_of_getLast? hline.last
  have hfluent := Fluent.call hline.fluent hh heq
  rw [HandleCall.apply_eq] at heq
  obtain ⟨-, rfl⟩ := StreamHandle.connect_eq_some.mp heq
  refine ⟨hfluent, ?_, ?_, ?_⟩
  · simp [hline.impls]
  · have hedges := hline.edges
    unfold endpoints at hedges ⊢
    simp only [DataflowGraphBuilder.ids, List.map_append, List.map_cons, List.map_nil] at hedges ⊢
    rw [hedges]
    exact (consecutive_concat hline.last).symm
  · simp [DataflowGraphBuilder.ids]

theorem Line.calls {impls : List (LogicalImpl U)} {calls : List (HandleCall U)} {h : StreamHandle}
    {b : DataflowGraphBuilder U} (hline : Line impls h b) {r : StreamHandle × DataflowGraphBuilder U}
    (heq : calls.foldlM (fun r call => call.apply r.1 r.2) (h, b) = some r) :
    Line (impls ++ calls.map HandleCall.impl) r.1 r.2 := by
  induction calls generalizing impls h b with
  | nil =>
    cases heq
    simpa using hline
  | cons call calls ih =>
    obtain ⟨s, hs, heq⟩ := Option.bind_eq_some_iff.mp heq
    have hrest := ih (hline.call hs) heq
    simpa using hrest

theorem linear_line {func : U → Option (Event Record) × U} {captured : U}
    {lateness : Option UInt64} {calls : List (HandleCall U)}
    {r : StreamHandle × DataflowGraphBuilder U}
    (h : linear func captured lateness calls = some r) :
    Line (.source { func, captured, allowedLateness := lateness.getD 0 } ::
      calls.map HandleCall.impl) r.1 r.2 := by
  unfold linear at h
  rw [Option.bind_eq_bind, Option.bind_eq_some_iff] at h
  obtain ⟨s, hs, h⟩ := h
  have hfluent := Fluent.source .new hs
  obtain ⟨-, rfl⟩ := DataflowGraphBuilder.source_eq_some.mp hs
  cases lateness with
  | none => exact @Line.calls U [_] calls _ _ ⟨hfluent, rfl, rfl, rfl⟩ r h
  | some lateness =>
    obtain ⟨s', hs', h⟩ := Option.bind_eq_some_iff.mp h
    have hfluent' := Fluent.withWatermark hfluent List.mem_cons_self hs'
    obtain ⟨nodes, hnodes, rfl⟩ := StreamHandle.withWatermark_eq_some hs'
    cases hnodes
    exact @Line.calls U [_] calls _ _ ⟨hfluent', rfl, rfl, rfl⟩ r h

/-- The graph is linear, along its operators. -/
theorem Line.isPath {impls : List (LogicalImpl U)} {h : StreamHandle}
    {b : DataflowGraphBuilder U} (hline : Line impls h b) :
    b.graph.IsPath b.graph.operators where
  operators := .refl _
  ids := b.graph_ids ▸ hline.fluent.forest.nodup
  edges := by
    rw [b.graph_ids, ← hline.edges]
    exact .refl _

end Xtream
