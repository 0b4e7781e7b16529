import Xtream.Lib.KahnNetwork
import Xtream.Graph.Fluent

/-!
# Calls on a builder

A call adds one operator, with an edge from each of its handles, or changes the lateness of a
source. The handles may be any: `Built` is what every call keeps, whatever operators its handles
name, and `Connected` what the calls keep that use handles of earlier calls.

* `apply_eq_some`: what a call that adds an operator does, and when it can;
* `Built.apply`: every call keeps the ids dense, the edges between operators, and the inputs of each
  operator;
* `calls_wellFormed`: with handles of earlier calls the graph is valid.
-/

namespace Xtream

open KahnNetwork (Steps)

variable {U : Type}

/-- How many streams the operator reads. -/
def LogicalImpl.inputs : LogicalImpl U → Nat
  | .source _ => 0
  | .windowJoin => 2
  | .intervalJoin => 2
  | _ => 1

/-! ## The calls -/

/-- A call of the fluent API that changes the builder. -/
inductive BuilderCall (U : Type)
  | source (func : U → Option (Event Record) × U) (captured : U)
  | call (call : HandleCall U) (h : StreamHandle)
  | windowJoin (h other : StreamHandle)
  | intervalJoin (h other : StreamHandle)
  | withWatermark (h : StreamHandle) (lateness : UInt64)

namespace BuilderCall

def apply : BuilderCall U → DataflowGraphBuilder U → Option (StreamHandle × DataflowGraphBuilder U)
  | source func captured, b => b.source func captured
  | call c h, b => c.apply h b
  | windowJoin h other, b => h.windowJoin other b
  | intervalJoin h other, b => h.intervalJoin other b
  | withWatermark h lateness, b => h.withWatermark lateness b

/-- The handles that the call uses. -/
def handles : BuilderCall U → List StreamHandle
  | source _ _ => []
  | call _ h => [h]
  | windowJoin h other => [h, other]
  | intervalJoin h other => [h, other]
  | withWatermark h _ => [h]

theorem handles_length_le (c : BuilderCall U) : c.handles.length ≤ 2 := by
  cases c <;> simp [handles]

/-- The name and the operator that the call adds. -/
def added : BuilderCall U → Option (String × LogicalImpl U)
  | source func captured => some ("source", .source { func, captured })
  | call c _ => some (c.name, c.impl)
  | windowJoin _ _ => some ("window_join", .windowJoin)
  | intervalJoin _ _ => some ("interval_join", .intervalJoin)
  | withWatermark _ _ => none

theorem inputs_added {c : BuilderCall U} {name : String} {op : LogicalImpl U}
    (h : c.added = some (name, op)) : op.inputs = c.handles.length := by
  cases c with
  | source func captured =>
    cases h
    rfl
  | call c h' =>
    cases h
    cases c <;> rfl
  | windowJoin h' other =>
    cases h
    rfl
  | intervalJoin h' other =>
    cases h
    rfl
  | withWatermark h' lateness => cases h

end BuilderCall

namespace DataflowGraphBuilder

/-- The edges to a new operator, with the next ids. -/
def edgesTo (b : DataflowGraphBuilder U) (target : OperatorId) (hs : List StreamHandle) :
    List StreamEdge :=
  hs.zipIdx.map fun h => ⟨⟨b.edgeCounter + .ofNat h.2⟩, h.1.id, target, .forward⟩

/-- The builder with a new operator and an edge to it from each of the handles. -/
def grown (b : DataflowGraphBuilder U) (name : String) (op : LogicalImpl U)
    (hs : List StreamHandle) : DataflowGraphBuilder U where
  counter := b.counter + 1
  edgeCounter := b.edgeCounter + .ofNat hs.length
  nodes := b.nodes ++ [⟨⟨b.counter⟩, name, 1, op⟩]
  edges := b.edges ++ b.edgesTo ⟨b.counter⟩ hs

theorem grown_none (b : DataflowGraphBuilder U) (name : String) (op : LogicalImpl U) :
    b.grown name op [] =
      { b with counter := b.counter + 1, nodes := b.nodes ++ [⟨⟨b.counter⟩, name, 1, op⟩] } := by
  simp [grown, edgesTo]

theorem grown_one (b : DataflowGraphBuilder U) (name : String) (op : LogicalImpl U)
    (h : StreamHandle) : b.grown name op [h] =
      { counter := b.counter + 1
        edgeCounter := b.edgeCounter + 1
        nodes := b.nodes ++ [⟨⟨b.counter⟩, name, 1, op⟩]
        edges := b.edges ++ [⟨⟨b.edgeCounter⟩, h.id, ⟨b.counter⟩, .forward⟩] } := by
  simp [grown, edgesTo]

theorem grown_two (b : DataflowGraphBuilder U) (name : String) (op : LogicalImpl U)
    (h other : StreamHandle) : b.grown name op [h, other] =
      { counter := b.counter + 1
        edgeCounter := b.edgeCounter + 1 + 1
        nodes := b.nodes ++ [⟨⟨b.counter⟩, name, 1, op⟩]
        edges := b.edges ++ [⟨⟨b.edgeCounter⟩, h.id, ⟨b.counter⟩, .forward⟩] ++
          [⟨⟨b.edgeCounter + 1⟩, other.id, ⟨b.counter⟩, .forward⟩] } := by
  simp [grown, edgesTo, UInt64.add_assoc]

end DataflowGraphBuilder

theorem StreamHandle.join_eq_some {h other : StreamHandle} {name : String} {op : LogicalImpl U}
    {b : DataflowGraphBuilder U} {r : StreamHandle × DataflowGraphBuilder U} :
    h.join other name op b = some r ↔
      (b.nodes.length < maxSize ∧ b.edges.length + 2 ≤ maxSize) ∧
        r = (⟨⟨b.counter⟩⟩, b.grown name op [h, other]) := by
  rw [DataflowGraphBuilder.grown_two]
  unfold StreamHandle.join DataflowGraphBuilder.addNode DataflowGraphBuilder.addEdge pushBack
  by_cases hn : b.nodes.length < maxSize
  · by_cases he : b.edges.length + 2 ≤ maxSize
    · have h₁ : b.edges.length < maxSize := by omega
      have h₂ : b.edges.length + 1 < maxSize := by omega
      simp [DataflowGraphBuilder.nextId, hn, he, h₁, h₂, eq_comm]
    · by_cases h₁ : b.edges.length < maxSize
      · have h₂ : ¬ b.edges.length + 1 < maxSize := by omega
        simp [DataflowGraphBuilder.nextId, hn, he, h₁, h₂]
      · simp [DataflowGraphBuilder.nextId, hn, he, h₁]
  · simp [DataflowGraphBuilder.nextId, hn]

theorem StreamHandle.connect_iff {h : StreamHandle} {name : String} {op : LogicalImpl U}
    {b : DataflowGraphBuilder U} {r : StreamHandle × DataflowGraphBuilder U} :
    h.connect name op b = some r ↔
      (b.nodes.length < maxSize ∧ b.edges.length + 1 ≤ maxSize) ∧
        r = (⟨⟨b.counter⟩⟩, b.grown name op [h]) := by
  rw [DataflowGraphBuilder.grown_one]
  exact connect_eq_some

theorem DataflowGraphBuilder.source_iff {b : DataflowGraphBuilder U}
    {func : U → Option (Event Record) × U} {captured : U}
    {r : StreamHandle × DataflowGraphBuilder U} : b.source func captured = some r ↔
      b.nodes.length < maxSize ∧
        r = (⟨⟨b.counter⟩⟩, b.grown "source" (.source { func, captured }) []) := by
  rw [grown_none]
  exact source_eq_some

/-- A call that adds an operator, and when there is room for it. -/
theorem BuilderCall.apply_eq_some {c : BuilderCall U} {name : String} {op : LogicalImpl U}
    (hc : c.added = some (name, op)) {b : DataflowGraphBuilder U} (hsize : b.edges.length ≤ maxSize)
    {r : StreamHandle × DataflowGraphBuilder U} : c.apply b = some r ↔
      (b.nodes.length < maxSize ∧ b.edges.length + c.handles.length ≤ maxSize) ∧
        r = (⟨⟨b.counter⟩⟩, b.grown name op c.handles) := by
  cases c with
  | source func captured =>
    cases hc
    rw [apply, DataflowGraphBuilder.source_iff]
    exact ⟨fun h => ⟨⟨h.1, hsize⟩, h.2⟩, fun h => ⟨h.1.1, h.2⟩⟩
  | call c h =>
    cases hc
    rw [apply, HandleCall.apply_eq, StreamHandle.connect_iff]
    rfl
  | windowJoin h other =>
    cases hc
    exact StreamHandle.join_eq_some
  | intervalJoin h other =>
    cases hc
    exact StreamHandle.join_eq_some
  | withWatermark h lateness => cases hc

/-! ## What every call keeps -/

/-- Ids are given out one after the other, and each operator has its incoming edges from the start.
The edges may come from anywhere. -/
structure Built (b : DataflowGraphBuilder U) : Prop where
  counter : b.counter.toNat = b.nodes.length + 1
  size : b.nodes.length ≤ maxSize
  ids : b.ids.map (·.raw.toNat) = List.range' 1 b.nodes.length
  edgeCounter : b.edgeCounter.toNat = b.edges.length
  edgeSize : b.edges.length ≤ maxSize
  edgeIds : b.edges.map (·.id.raw.toNat) = List.range b.edges.length
  targets : ∀ e ∈ b.edges, e.target ∈ b.ids
  inputs : ∀ node ∈ b.nodes, (b.edges.countP fun e => e.target = node.id) = node.op.inputs

namespace DataflowGraphBuilder

@[simp] theorem edgesTo_length (b : DataflowGraphBuilder U) (target : OperatorId)
    (hs : List StreamHandle) : (b.edgesTo target hs).length = hs.length := by
  simp [edgesTo]

theorem mem_edgesTo {b : DataflowGraphBuilder U} {target : OperatorId} {hs : List StreamHandle}
    {e : StreamEdge} (he : e ∈ b.edgesTo target hs) :
    e.target = target ∧ ∃ h ∈ hs, e.source = h.id := by
  obtain ⟨h, hh, rfl⟩ := List.mem_map.mp he
  exact ⟨rfl, h.1, (List.mem_zipIdx hh).2.2 ▸ List.getElem_mem _, rfl⟩

/-- The ids of the new edges follow those of the others. -/
theorem edgesTo_ids {b : DataflowGraphBuilder U} {target : OperatorId} {hs : List StreamHandle}
    (h : b.edgeCounter.toNat + hs.length < 2 ^ 64) :
    (b.edgesTo target hs).map (·.id.raw.toNat) =
      List.range' b.edgeCounter.toNat hs.length := by
  rw [edgesTo, List.map_map, List.zipIdx_eq_zip_range', List.range'_eq_map_range]
  refine List.ext_getElem (by simp) fun i hi _ => ?_
  have hi' : i < hs.length := by simpa using hi
  simp only [List.getElem_map, List.getElem_zip, List.getElem_range', List.getElem_range,
    Function.comp_apply]
  rw [toNat_add_of_lt]
  · simp
    omega
  · simp
    omega

end DataflowGraphBuilder

namespace Built

variable {b : DataflowGraphBuilder U}

theorem new : Built ({} : DataflowGraphBuilder U) where
  counter := rfl
  size := Nat.zero_le _
  ids := rfl
  edgeCounter := rfl
  edgeSize := Nat.zero_le _
  edgeIds := rfl
  targets := List.forall_mem_nil _
  inputs := List.forall_mem_nil _

/-- The operators are those with the ids `1 .. n`. -/
theorem mem_ids (h : Built b) {id : OperatorId} :
    id ∈ b.ids ↔ 1 ≤ id.raw.toNat ∧ id.raw.toNat ≤ b.nodes.length := by
  have hraw : id ∈ b.ids ↔ id.raw.toNat ∈ b.ids.map (·.raw.toNat) := by
    rw [List.mem_map]
    refine ⟨fun hid => ⟨id, hid, rfl⟩, ?_⟩
    rintro ⟨⟨raw⟩, hid, heq⟩
    obtain rfl : raw = id.raw := UInt64.toNat_inj.mp heq
    exact hid
  rw [hraw, h.ids, List.mem_range'_1]
  omega

theorem nodup (h : Built b) : b.ids.Nodup := by
  have hraw : (b.ids.map (·.raw.toNat)).Nodup := h.ids ▸ List.nodup_range'
  exact List.Nodup.of_map _ hraw

theorem edgeIds_nodup (h : Built b) : (b.edges.map (·.id)).Nodup := by
  have hraw : (b.edges.map (·.id.raw.toNat)).Nodup := h.edgeIds ▸ List.nodup_range
  refine List.Nodup.of_map (fun id : EdgeId => id.raw.toNat) ?_
  rwa [List.map_map]

theorem counter_not_mem (h : Built b) : (⟨b.counter⟩ : OperatorId) ∉ b.ids := by
  rw [h.mem_ids, h.counter]
  omega

/-- A new operator, with its incoming edges. -/
theorem grown (h : Built b) {name : String} {op : LogicalImpl U} {hs : List StreamHandle}
    (hlen : b.nodes.length < maxSize) (hedges : b.edges.length + hs.length ≤ maxSize)
    (hinputs : op.inputs = hs.length) : Built (b.grown name op hs) := by
  have hmax : maxSize + 1 < 2 ^ 64 := by
    unfold maxSize
    omega
  have hcounter : (b.counter + 1).toNat = b.counter.toNat + 1 := by
    rw [toNat_add_of_lt (by rw [h.counter]; simp; omega)]
    rfl
  have hof : (UInt64.ofNat hs.length).toNat = hs.length :=
    UInt64.toNat_ofNat_of_lt (by simp [UInt64.size]; omega)
  have hids : (b.grown name op hs).ids = b.ids ++ [⟨b.counter⟩] := List.map_append
  -- the old edges do not lead to the new operator, nor the new ones to an old operator
  have hold : (b.edges.countP fun e => e.target = ⟨b.counter⟩) = 0 := by
    refine List.countP_eq_zero.mpr fun e he htarget => h.counter_not_mem ?_
    exact of_decide_eq_true htarget ▸ h.targets e he
  constructor
  case counter =>
    simp [DataflowGraphBuilder.grown, hcounter, h.counter]
  case size =>
    simpa [DataflowGraphBuilder.grown] using hlen
  case ids =>
    rw [hids]
    have hnodes : (b.grown name op hs).nodes.length = b.nodes.length + 1 := by
      simp [DataflowGraphBuilder.grown]
    rw [hnodes, List.map_append, h.ids, List.range'_1_concat, Nat.add_comm 1, ← h.counter]
    rfl
  case edgeCounter =>
    show (b.edgeCounter + .ofNat hs.length).toNat = (b.edges ++ b.edgesTo _ hs).length
    rw [toNat_add_of_lt (by rw [h.edgeCounter, hof]; omega), h.edgeCounter, hof,
      List.length_append, DataflowGraphBuilder.edgesTo_length]
  case edgeSize =>
    show (b.edges ++ b.edgesTo _ hs).length ≤ maxSize
    rwa [List.length_append, DataflowGraphBuilder.edgesTo_length]
  case edgeIds =>
    show (b.edges ++ b.edgesTo _ hs).map _ = List.range (b.edges ++ b.edgesTo _ hs).length
    rw [List.map_append, h.edgeIds, DataflowGraphBuilder.edgesTo_ids (by
      rw [h.edgeCounter]; omega), h.edgeCounter, List.length_append,
      DataflowGraphBuilder.edgesTo_length, List.range_eq_range', List.range_eq_range',
      ← List.range'_append_1, Nat.zero_add]
  case targets =>
    intro e he
    rw [hids]
    rcases List.mem_append.mp he with he | he
    · exact List.mem_append_left _ (h.targets e he)
    · rw [(DataflowGraphBuilder.mem_edgesTo he).1]
      exact List.mem_append_right _ List.mem_cons_self
  case inputs =>
    intro node hnode
    show ((b.edges ++ b.edgesTo _ hs).countP fun e => e.target = node.id) = node.op.inputs
    rw [List.countP_append]
    rcases List.mem_append.mp hnode with hnode | hnode
    · rw [h.inputs node hnode]
      refine Nat.add_eq_left.mpr (List.countP_eq_zero.mpr fun e he htarget => h.counter_not_mem ?_)
      rw [← (DataflowGraphBuilder.mem_edgesTo he).1, of_decide_eq_true htarget]
      exact List.mem_map_of_mem hnode
    · obtain rfl := List.mem_singleton.mp hnode
      have hall : (b.edgesTo ⟨b.counter⟩ hs).countP (fun e => e.target = ⟨b.counter⟩) =
          (b.edgesTo ⟨b.counter⟩ hs).length :=
        List.countP_eq_length.mpr fun e he =>
          decide_eq_true (DataflowGraphBuilder.mem_edgesTo he).1
      show _ + (b.edgesTo ⟨b.counter⟩ hs).countP (fun e => e.target = ⟨b.counter⟩) = op.inputs
      rw [hall, DataflowGraphBuilder.edgesTo_length, hinputs]
      exact Nat.add_eq_right.mpr hold

end Built

/-- What `set_source_lateness` keeps: the ids, and which operators are which. -/
theorem DataflowGraphBuilder.setLateness_inputs {id : OperatorId} {lateness : UInt64}
    {nodes nodes' : List (StreamNode U)} (h : setLateness id lateness nodes = some nodes') :
    nodes'.map (fun node => (node.id, node.op.inputs)) =
      nodes.map fun node => (node.id, node.op.inputs) := by
  obtain ⟨before, node, op, after, rfl, hop, rfl⟩ := setLateness_eq_some h
  simp only [List.map_append, List.map_cons, hop]
  rfl

theorem DataflowGraphBuilder.setLateness_ids {b : DataflowGraphBuilder U} {id : OperatorId}
    {lateness : UInt64} {nodes : List (StreamNode U)}
    (h : setLateness id lateness b.nodes = some nodes) : ids { b with nodes } = b.ids := by
  have hfst := congrArg (List.map Prod.fst) (setLateness_inputs h)
  rw [List.map_map, List.map_map] at hfst
  exact hfst

theorem Built.setLateness {b : DataflowGraphBuilder U} (h : Built b) {id : OperatorId}
    {lateness : UInt64} {nodes : List (StreamNode U)}
    (hnodes : DataflowGraphBuilder.setLateness id lateness b.nodes = some nodes) :
    Built { b with nodes } := by
  have hkeep := DataflowGraphBuilder.setLateness_inputs hnodes
  have hlen : nodes.length = b.nodes.length := by simpa using congrArg List.length hkeep
  have hids := DataflowGraphBuilder.setLateness_ids hnodes
  refine ⟨?_, ?_, ?_, h.edgeCounter, h.edgeSize, h.edgeIds, ?_, fun node hnode => ?_⟩
  · rw [hlen]
    exact h.counter
  · rw [hlen]
    exact h.size
  · rw [hids, hlen]
    exact h.ids
  · rw [hids]
    exact h.targets
  · have hmem := List.mem_map_of_mem (f := fun node => (node.id, node.op.inputs)) hnode
    rw [hkeep] at hmem
    obtain ⟨node', hnode', heq⟩ := List.mem_map.mp hmem
    obtain ⟨hid, hop⟩ := Prod.mk.inj heq
    rw [← hid, ← hop]
    exact h.inputs node' hnode'

/-- Every call keeps it, with any handles. -/
theorem Built.apply {b : DataflowGraphBuilder U} (h : Built b) {c : BuilderCall U}
    {r : StreamHandle × DataflowGraphBuilder U} (heq : c.apply b = some r) : Built r.2 := by
  cases hc : c.added with
  | none =>
    cases c with
    | withWatermark h' lateness =>
      obtain ⟨nodes, hnodes, rfl⟩ := StreamHandle.withWatermark_eq_some heq
      exact h.setLateness hnodes
    | _ => cases hc
  | some added =>
    obtain ⟨⟨hlen, hedges⟩, rfl⟩ := (BuilderCall.apply_eq_some hc h.edgeSize).mp heq
    exact h.grown hlen hedges (BuilderCall.inputs_added hc)

/-! ## Calls with handles of earlier calls -/

/-- A builder with the handles that its calls have returned, and those of them that are handles of
sources. -/
structure Session (U : Type) where
  builder : DataflowGraphBuilder U := {}
  handles : List StreamHandle := []
  sources : List StreamHandle := []

namespace Session

/-- The call uses handles of earlier calls, and `with_watermark` the handle of a source. -/
def Allows (s : Session U) : BuilderCall U → Prop
  | .withWatermark h _ => h ∈ s.sources
  | c => ∀ h ∈ c.handles, h ∈ s.handles

/-- The session after a call that returns `r`. -/
def after (s : Session U) (c : BuilderCall U) (r : StreamHandle × DataflowGraphBuilder U) :
    Session U where
  builder := r.2
  handles := s.handles ++ [r.1]
  sources := match c with
    | .source _ _ | .withWatermark _ _ => s.sources ++ [r.1]
    | _ => s.sources

def Step (s : Session U) (c : BuilderCall U) (s' : Session U) : Prop :=
  s.Allows c ∧ ∃ r, c.apply s.builder = some r ∧ s' = s.after c r

/-- What the calls keep: the edges go from older operators to newer ones. -/
structure Connected (s : Session U) : Prop where
  built : Built s.builder
  known : ∀ e ∈ s.builder.edges, e.source ∈ s.builder.ids
  ascending : ∀ e ∈ s.builder.edges, e.source.raw.toNat < e.target.raw.toNat
  handles : ∀ h ∈ s.handles, h.id ∈ s.builder.ids
  sources : ∀ h ∈ s.sources, h ∈ s.handles ∧
    ∃ node ∈ s.builder.nodes, node.id = h.id ∧ node.op.inputs = 0

variable {s s' : Session U}

theorem Connected.new : Connected ({} : Session U) where
  built := .new
  known := List.forall_mem_nil _
  ascending := List.forall_mem_nil _
  handles := List.forall_mem_nil _
  sources := List.forall_mem_nil _

theorem Connected.handles_mem (h : Connected s) {c : BuilderCall U} (hc : s.Allows c) :
    ∀ h ∈ c.handles, h.id ∈ s.builder.ids := by
  intro h' hh'
  cases c with
  | withWatermark h₁ lateness =>
    obtain rfl := List.mem_singleton.mp hh'
    exact h.handles h' (h.sources h' hc).1
  | _ => exact h.handles h' (hc h' hh')

/-- The handle of a source is that of a source call, or the one `with_watermark` was called on. -/
theorem mem_sources_after {c : BuilderCall U} {r : StreamHandle × DataflowGraphBuilder U}
    {h : StreamHandle} (hh : h ∈ (s.after c r).sources) :
    h ∈ s.sources ∨ h = r.1 ∧ (c.handles = [] ∨ c.added = none) := by
  cases c with
  | source func captured =>
    exact (List.mem_append.mp hh).imp_right fun hh => ⟨List.mem_singleton.mp hh, Or.inl rfl⟩
  | withWatermark h' lateness =>
    exact (List.mem_append.mp hh).imp_right fun hh => ⟨List.mem_singleton.mp hh, Or.inr rfl⟩
  | _ => exact Or.inl hh

/-- A call that adds an operator. -/
theorem Connected.grown (h : Connected s) {c : BuilderCall U} (hc : s.Allows c) {name : String}
    {op : LogicalImpl U} (hadded : c.added = some (name, op))
    (hbuilt : Built (s.builder.grown name op c.handles)) :
    Connected (s.after c (⟨⟨s.builder.counter⟩⟩, s.builder.grown name op c.handles)) := by
  have hids : (s.builder.grown name op c.handles).ids =
      s.builder.ids ++ [⟨s.builder.counter⟩] := List.map_append
  have hknown := h.handles_mem hc
  refine ⟨hbuilt, fun e he => ?_, fun e he => ?_, fun h' hh' => ?_, fun h' hh' => ?_⟩
  · show e.source ∈ (s.builder.grown name op c.handles).ids
    rw [hids]
    refine List.mem_append_left _ ?_
    rcases List.mem_append.mp he with he | he
    · exact h.known e he
    · obtain ⟨-, h', hh', heq⟩ := DataflowGraphBuilder.mem_edgesTo he
      exact heq ▸ hknown h' hh'
  · rcases List.mem_append.mp he with he | he
    · exact h.ascending e he
    · -- a new edge comes from an operator that is there, and leads to the new one
      obtain ⟨htarget, h', hh', heq⟩ := DataflowGraphBuilder.mem_edgesTo he
      have hle := (h.built.mem_ids.mp (hknown h' hh')).2
      rw [heq, htarget]
      show h'.id.raw.toNat < s.builder.counter.toNat
      rw [h.built.counter]
      omega
  · show h'.id ∈ (s.builder.grown name op c.handles).ids
    rw [hids]
    rcases List.mem_append.mp hh' with hh' | hh'
    · exact List.mem_append_left _ (h.handles h' hh')
    · rw [List.mem_singleton.mp hh']
      exact List.mem_append_right _ List.mem_cons_self
  · rcases mem_sources_after hh' with hh' | ⟨rfl, hnone | hnone⟩
    · obtain ⟨hin, node, hnode, hid, hinputs⟩ := h.sources h' hh'
      exact ⟨List.mem_append_left _ hin, node, List.mem_append_left _ hnode, hid, hinputs⟩
    · refine ⟨List.mem_append_right _ List.mem_cons_self, _,
        List.mem_append_right _ List.mem_cons_self, rfl, ?_⟩
      rw [BuilderCall.inputs_added hadded, hnone]
      rfl
    · rw [hadded] at hnone
      cases hnone

/-- A call keeps the operators connected. -/
theorem Connected.step (h : Connected s) {c : BuilderCall U} (hstep : Step s c s') :
    Connected s' := by
  obtain ⟨hc, r, heq, rfl⟩ := hstep
  have hbuilt := h.built.apply heq
  cases hadded : c.added with
  | some added =>
    obtain ⟨-, rfl⟩ := (BuilderCall.apply_eq_some hadded h.built.edgeSize).mp heq
    exact h.grown hc hadded hbuilt
  | none =>
    cases c with
    | withWatermark h₁ lateness =>
      obtain ⟨nodes, hnodes, rfl⟩ := StreamHandle.withWatermark_eq_some heq
      have hkeep := DataflowGraphBuilder.setLateness_inputs hnodes
      have hids := DataflowGraphBuilder.setLateness_ids hnodes
      have hold : ∀ h' ∈ s.sources, h' ∈ s.handles ++ [h₁] ∧
          ∃ node ∈ nodes, node.id = h'.id ∧ node.op.inputs = 0 := by
        intro h' hh'
        obtain ⟨hin, node, hnode, hid, hinputs⟩ := h.sources h' hh'
        have hmem := List.mem_map_of_mem (f := fun node => (node.id, node.op.inputs)) hnode
        rw [← hkeep] at hmem
        obtain ⟨node', hnode', hsame⟩ := List.mem_map.mp hmem
        obtain ⟨hid', hop⟩ := Prod.mk.inj hsame
        exact ⟨List.mem_append_left _ hin, node', hnode', hid'.trans hid, hop.trans hinputs⟩
      refine ⟨hbuilt, fun e he => ?_, h.ascending, fun h' hh' => ?_, fun h' hh' => ?_⟩
      · exact hids ▸ h.known e he
      · show h'.id ∈ DataflowGraphBuilder.ids { s.builder with nodes }
        rw [hids]
        rcases List.mem_append.mp hh' with hh' | hh'
        · exact h.handles h' hh'
        · rw [List.mem_singleton.mp hh']
          exact h.handles h₁ (h.sources h₁ hc).1
      · rcases List.mem_append.mp hh' with hh' | hh'
        · exact hold h' hh'
        · rw [List.mem_singleton.mp hh']
          exact hold h₁ hc
    | _ => cases hadded

theorem connected_of_steps {calls : List (BuilderCall U)} (h : Steps Step {} calls s) :
    Connected s := Steps.invariant (fun _ _ _ hs hstep => hs.step hstep) .new h

theorem Connected.step_length (h : Connected s) {c : BuilderCall U} (hstep : Step s c s') :
    s'.builder.nodes.length ≤ s.builder.nodes.length + 1 ∧
      s'.builder.edges.length ≤ s.builder.edges.length + 2 := by
  obtain ⟨-, r, heq, rfl⟩ := hstep
  cases hadded : c.added with
  | some added =>
    obtain ⟨-, rfl⟩ := (BuilderCall.apply_eq_some hadded h.built.edgeSize).mp heq
    simp [after, DataflowGraphBuilder.grown, c.handles_length_le]
  | none =>
    cases c with
    | withWatermark h₁ lateness =>
      obtain ⟨nodes, hkeep, rfl⟩ := StreamHandle.withWatermark_eq_some heq
      have hlen := congrArg List.length (DataflowGraphBuilder.setLateness_inputs hkeep)
      rw [List.length_map, List.length_map] at hlen
      simp [after, hlen]
    | _ => cases hadded

/-- How many operators and edges the calls add. -/
theorem length_of_steps {calls : List (BuilderCall U)} (h : Steps Step {} calls s) :
    s.builder.nodes.length ≤ calls.length ∧ s.builder.edges.length ≤ 2 * calls.length := by
  have hstart : Connected ({} : Session U) ∧
      ({} : Session U).builder.nodes.length ≤ ([] : List (BuilderCall U)).length ∧
      ({} : Session U).builder.edges.length ≤ 2 * ([] : List (BuilderCall U)).length :=
    ⟨.new, Nat.le_refl _, Nat.le_refl _⟩
  refine (Steps.history (I := fun (calls : List (BuilderCall U)) (s : Session U) =>
    Connected s ∧ s.builder.nodes.length ≤ calls.length ∧
      s.builder.edges.length ≤ 2 * calls.length) ?_ hstart h).2
  rintro calls s c s' ⟨hs, hnodes, hedges⟩ hstep
  obtain ⟨hnodes', hedges'⟩ := hs.step_length hstep
  rw [List.length_append, List.length_singleton]
  exact ⟨hs.step hstep, by omega, by omega⟩

/-- The handle of a source is found. -/
theorem exists_setLateness {id : OperatorId} (lateness : UInt64) {nodes : List (StreamNode U)}
    (hin : ∃ node ∈ nodes, node.id = id)
    (hsource : ∀ node ∈ nodes, node.id = id → node.op.inputs = 0) :
    ∃ nodes', DataflowGraphBuilder.setLateness id lateness nodes = some nodes' := by
  induction nodes with
  | nil =>
    obtain ⟨node, hnode, -⟩ := hin
    cases hnode
  | cons node nodes ih =>
    rw [DataflowGraphBuilder.setLateness]
    by_cases hid : node.id = id
    · have hinputs := hsource node List.mem_cons_self hid
      cases hop : node.op with
      | source op => simp [hid]
      | _ =>
        rw [hop] at hinputs
        cases hinputs
    · rw [if_pos hid]
      obtain ⟨node', hnode', hid'⟩ := hin
      rcases List.mem_cons.mp hnode' with rfl | hnode'
      · exact absurd hid' hid
      · obtain ⟨nodes', hnodes'⟩ := ih ⟨node', hnode', hid'⟩
          fun n hn => hsource n (List.mem_cons_of_mem _ hn)
        exact ⟨node :: nodes', by rw [hnodes']; rfl⟩

/-- No call fails, while there is room. -/
theorem Connected.exists_step (h : Connected s) {c : BuilderCall U} (hc : s.Allows c)
    (hnodes : s.builder.nodes.length < maxSize) (hedges : s.builder.edges.length + 2 ≤ maxSize) :
    ∃ s', Step s c s' := by
  cases hadded : c.added with
  | some added =>
    have htwo := c.handles_length_le
    exact ⟨_, hc, _, (BuilderCall.apply_eq_some hadded h.built.edgeSize).mpr
      ⟨⟨hnodes, by omega⟩, rfl⟩, rfl⟩
  | none =>
    cases c with
    | withWatermark h₁ lateness =>
      obtain ⟨-, node, hnode, hid, hinputs⟩ := h.sources h₁ hc
      obtain ⟨nodes, heq⟩ := exists_setLateness lateness ⟨node, hnode, hid⟩
        fun node' hnode' hid' => by
          rw [List.inj_on_of_nodup_map h.built.nodup hnode' hnode (hid'.trans hid.symm)]
          exact hinputs
      refine ⟨_, hc, (h₁, { s.builder with nodes }), ?_, rfl⟩
      simp [BuilderCall.apply, StreamHandle.withWatermark,
        DataflowGraphBuilder.setSourceLateness, heq]
    | _ => cases hadded

/-- The graph is well-formed, when it has an operator. -/
theorem Connected.wellFormed (h : Connected s) (hne : s.builder.nodes ≠ []) :
    s.builder.WellFormed where
  nonempty := hne
  known e he := ⟨h.known e he, h.built.targets e he⟩
  acyclic := acyclic_of_ascending h.ascending

/-- **The fluent API builds well-formed graphs.** -/
theorem calls_wellFormed {calls : List (BuilderCall U)} {s : Session U}
    (h : Steps Step {} calls s) (hlen : calls.length < 2 ^ 30) :
    let b := s.builder
    b.ids.Nodup ∧
      (∀ e ∈ b.edges, e.source ∈ b.ids ∧ e.target ∈ b.ids ∧
        e.source.raw.toNat < e.target.raw.toNat) ∧
      (b.edges.map (·.id)).Nodup ∧
      (∀ node ∈ b.nodes, (b.edges.countP fun e => e.target = node.id) = node.op.inputs) ∧
      (b.nodes ≠ [] → ∀ fuel, b.nodes.length + b.edges.length ≤ fuel →
        b.validate fuel = some .ok ∧ b.build fuel = some b.graph) ∧
      ∀ c, s.Allows c → ∃ s', Step s c s' := by
  intro b
  have hs := connected_of_steps h
  obtain ⟨hnodes, hedges⟩ := length_of_steps h
  have hmax : 2 ^ 32 < maxSize := by decide
  have hfit : ∀ id, (b.edges.countP fun e => e.target = id) < 2 ^ 31 := fun id =>
    List.countP_le_length.trans_lt (hedges.trans_lt (by omega))
  refine ⟨hs.built.nodup, fun e he => ⟨hs.known e he, hs.built.targets e he, hs.ascending e he⟩,
    hs.built.edgeIds_nodup, hs.built.inputs, fun hne fuel hfuel => ?_,
    fun c hc => hs.exists_step hc (by omega) (by omega)⟩
  have hw := hs.wellFormed hne
  exact ⟨hw.validate_eq hs.built.nodup hfit hfuel, hw.build_eq hs.built.nodup hfit hfuel⟩

/-- A source, joined with itself. -/
theorem calls_wellFormed_selfJoin : ∃ s : Session Unit,
    Steps Step {} [.source (fun u => (none, u)) (), .windowJoin ⟨⟨1⟩⟩ ⟨⟨1⟩⟩] s ∧
      s.builder.validate 4 = some .ok := by
  refine ⟨_, .cons ⟨?_, _, rfl, rfl⟩ (.single ⟨?_, _, rfl, rfl⟩), ?_⟩
  · intro h hh
    cases hh
  · intro h hh
    simpa [after, BuilderCall.handles] using hh
  · refine ((calls_wellFormed (.cons ⟨?_, _, rfl, rfl⟩ (.single ⟨?_, _, rfl, rfl⟩))
      (by decide)).2.2.2.2.1 (by decide) 4 (by decide)).1
    · intro h hh
      cases hh
    · intro h hh
      simpa [after, BuilderCall.handles] using hh

end Session

end Xtream
