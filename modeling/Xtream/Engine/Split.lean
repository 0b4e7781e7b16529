import Xtream.Engine.LinearChain
import Xtream.Engine.Shape
import Xtream.Graph.Fluent

/-!
# The split at the windows

The pipelines of a linear graph, put one behind the other without their channel sources, are its
compiled operators in the order of the calls, each window with its channel.

* `pipelines_splits`: the pipelines that `build` makes of a chain;
* `split_exact`: those of a graph that the fluent API builds from one handle to the next.
-/

namespace Xtream

variable {U : Type}

namespace ExecutionGraph

/-- The operators of a pipeline without its channel source. -/
def dropChannelSource : Chain U → Chain U
  | .channelSource _ :: rest => rest
  | ops => ops

/-- The operators of a chain, the windows with the channels from `n` on. -/
def withChannels (n : Nat) : Chain U → Chain U
  | [] => []
  | op :: rest =>
    if op.isWindow then op.setOutputChannel n :: withChannels (n + 1) rest
    else op :: withChannels n rest

/-- A pipeline that ends in its only window, which writes the channel. -/
def EndsInWindow (ch : ChannelId) (p : Chain U) : Prop :=
  ∃ before window, p = before ++ [window] ∧ (∀ op ∈ before, op.isWindow = false) ∧
    window.isWindow = true ∧ window.shape.outputChannel = some ch

/-- The pipelines split a chain at its windows. -/
structure Splits (ops : Chain U) (ps : List (Chain U)) : Prop where
  /-- One pipeline more than windows. -/
  length : ps.length = ops.countP PhysicalOperator.isWindow + 1
  chain : ps.flatMap dropChannelSource = withChannels 0 ops
  /-- Each pipeline but the last ends in its only window, and the next one reads its channel. -/
  windows : ∀ i < ops.countP PhysicalOperator.isWindow, ∃ p rest ch,
    ps[i]? = some p ∧ EndsInWindow ch p ∧ ps[i + 1]? = some (.channelSource ⟨ch, false⟩ :: rest)
  last : ∃ p, ps[ops.countP PhysicalOperator.isWindow]? = some p ∧ ∀ op ∈ p, op.isWindow = false
  /-- The channels of the windows are distinct. -/
  channels : (Chain.outputChannels ps.flatten).Nodup

theorem setOutputChannel_isWindow (op : PhysicalOperator U) (ch : ChannelId) :
    (op.setOutputChannel ch).isWindow = op.isWindow := by
  cases op <;> rfl

theorem setOutputChannel_shape {op : PhysicalOperator U} (h : op.isWindow = true) (ch : ChannelId) :
    (op.setOutputChannel ch).shape.outputChannel = some ch := by
  cases op with
  | countWindow op => rfl
  | timeWindow op => rfl
  | _ => cases h

theorem shape_of_not_window {op : PhysicalOperator U} (h : op.isWindow = false) :
    op.shape.outputChannel = none := by
  cases op with
  | countWindow op => cases h
  | timeWindow op => cases h
  | _ => rfl

/-- A pipeline that `acc` starts. -/
theorem dropChannelSource_append {acc : Chain U} (h : acc ≠ []) (ops : Chain U) :
    dropChannelSource (acc ++ ops) = dropChannelSource acc ++ ops := by
  cases acc with
  | nil => exact absurd rfl h
  | cons op acc => cases op <;> rfl

theorem outputChannels_eq_nil {ops : Chain U} (h : ∀ op ∈ ops, op.isWindow = false) :
    Chain.outputChannels ops = [] := by
  unfold Chain.outputChannels Chain.shapes
  rw [List.filterMap_map]
  exact List.filterMap_eq_nil_iff.mpr fun op hop => shape_of_not_window (h op hop)

/-! ## The pipelines of a chain -/

theorem pipelines_length (n : Nat) (acc ops : Chain U) :
    (pipelines n acc ops).length = ops.countP PhysicalOperator.isWindow + 1 := by
  induction ops generalizing n acc with
  | nil => rfl
  | cons op rest ih =>
    rw [pipelines]
    split
    · rename_i hop
      rw [List.length_cons, ih, List.countP_cons_of_pos hop]
    · rename_i hop
      rw [ih, List.countP_cons_of_neg hop]

/-- The first pipeline starts with the operators already taken. -/
theorem pipelines_head (n : Nat) (acc ops : Chain U) :
    ∃ rest, (pipelines n acc ops)[0]? = some (acc ++ rest) := by
  induction ops generalizing acc with
  | nil => exact ⟨[], by simp [pipelines]⟩
  | cons op rest ih =>
    rw [pipelines]
    split
    · exact ⟨[op.setOutputChannel n], rfl⟩
    · obtain ⟨tail, htail⟩ := ih (acc ++ [op])
      exact ⟨op :: tail, by rw [htail, List.append_assoc]; rfl⟩

theorem pipelines_chain (n : Nat) {acc : Chain U} (hne : acc ≠ []) (ops : Chain U) :
    (pipelines n acc ops).flatMap dropChannelSource =
      dropChannelSource acc ++ withChannels n ops := by
  induction ops generalizing n acc with
  | nil => simp [pipelines, withChannels]
  | cons op rest ih =>
    rw [pipelines, withChannels]
    split
    · rw [List.flatMap_cons, ih (n + 1) (List.cons_ne_nil _ _), dropChannelSource_append hne]
      simp [dropChannelSource]
    · rw [ih n (by simp), dropChannelSource_append hne]
      simp

/-- Each pipeline but the last ends in its only window. -/
theorem pipelines_windows (n : Nat) {acc : Chain U} (hacc : ∀ op ∈ acc, op.isWindow = false)
    (ops : Chain U) {i : Nat} (hi : i < ops.countP PhysicalOperator.isWindow) :
    ∃ p rest, (pipelines n acc ops)[i]? = some p ∧ EndsInWindow (n + i) p ∧
      (pipelines n acc ops)[i + 1]? = some (.channelSource ⟨n + i, false⟩ :: rest) := by
  induction ops generalizing n acc i with
  | nil => cases hi
  | cons op rest ih =>
    rw [pipelines]
    split
    · rename_i hop
      cases i with
      | zero =>
        obtain ⟨tail, htail⟩ := pipelines_head (n + 1) [.channelSource ⟨n, false⟩] rest
        refine ⟨_, tail, rfl, ⟨acc, op.setOutputChannel n, rfl, hacc, ?_, ?_⟩, htail⟩
        · rw [setOutputChannel_isWindow, hop]
        · exact setOutputChannel_shape hop n
      | succ i =>
        rw [List.countP_cons_of_pos hop] at hi
        have hshift : n + (i + 1) = n + 1 + i := by omega
        rw [List.getElem?_cons_succ, List.getElem?_cons_succ, hshift]
        exact ih (n + 1) (List.forall_mem_singleton.mpr rfl) (Nat.lt_of_succ_lt_succ hi)
    · rename_i hop
      rw [List.countP_cons_of_neg hop] at hi
      have hop' : op.isWindow = false := by simpa using hop
      exact ih n (List.forall_mem_append.mpr ⟨hacc, List.forall_mem_singleton.mpr hop'⟩) hi

theorem pipelines_last (n : Nat) {acc : Chain U} (hacc : ∀ op ∈ acc, op.isWindow = false)
    (ops : Chain U) : ∃ p,
      (pipelines n acc ops)[ops.countP PhysicalOperator.isWindow]? = some p ∧
        ∀ op ∈ p, op.isWindow = false := by
  induction ops generalizing n acc with
  | nil => exact ⟨acc, rfl, hacc⟩
  | cons op rest ih =>
    rw [pipelines]
    split
    · rename_i hop
      rw [List.countP_cons_of_pos hop, List.getElem?_cons_succ]
      exact ih (n + 1) (List.forall_mem_singleton.mpr rfl)
    · rename_i hop
      rw [List.countP_cons_of_neg hop]
      have hop' : op.isWindow = false := by simpa using hop
      exact ih n (List.forall_mem_append.mpr ⟨hacc, List.forall_mem_singleton.mpr hop'⟩)

/-- The channels are numbered from `n` on. -/
theorem pipelines_channels (n : Nat) {acc : Chain U} (hacc : ∀ op ∈ acc, op.isWindow = false)
    (ops : Chain U) : Chain.outputChannels (pipelines n acc ops).flatten =
      List.range' n (ops.countP PhysicalOperator.isWindow) := by
  induction ops generalizing n acc with
  | nil =>
    rw [pipelines, List.flatten_singleton]
    exact outputChannels_eq_nil hacc
  | cons op rest ih =>
    rw [pipelines]
    split
    · rename_i hop
      have hwindow : Chain.outputChannels [op.setOutputChannel n] = [n] := by
        simp [Chain.outputChannels, Chain.shapes, setOutputChannel_shape hop]
      rw [List.flatten_cons, Chain.outputChannels_append, Chain.outputChannels_append,
        outputChannels_eq_nil hacc, hwindow, ih (n + 1) (List.forall_mem_singleton.mpr rfl),
        List.countP_cons_of_pos hop, List.range'_succ]
      rfl
    · rename_i hop
      rw [List.countP_cons_of_neg hop]
      have hop' : op.isWindow = false := by simpa using hop
      exact ih n (List.forall_mem_append.mpr ⟨hacc, List.forall_mem_singleton.mpr hop'⟩)

/-- The pipelines split the chain, from a root that is no window and no channel source. -/
theorem pipelines_splits {root : PhysicalOperator U} (hwindow : root.isWindow = false)
    (hroot : dropChannelSource [root] = [root]) (rest : Chain U) :
    Splits (root :: rest) (pipelines 0 [root] rest) := by
  have hcount : (root :: rest).countP PhysicalOperator.isWindow =
      rest.countP PhysicalOperator.isWindow := List.countP_cons_of_neg (by simp [hwindow])
  have hacc : ∀ op ∈ [root], op.isWindow = false := List.forall_mem_singleton.mpr hwindow
  refine ⟨?_, ?_, fun i hi => ?_, ?_, ?_⟩
  · rw [hcount, pipelines_length]
  · rw [pipelines_chain 0 (List.cons_ne_nil _ _), hroot, withChannels, if_neg (by simp [hwindow])]
    rfl
  · rw [hcount] at hi
    obtain ⟨p, tail, hp, hends, hnext⟩ := pipelines_windows 0 hacc rest hi
    exact ⟨p, tail, 0 + i, hp, hends, hnext⟩
  · rw [hcount]
    exact pipelines_last 0 hacc rest
  · rw [pipelines_channels 0 hacc]
    exact List.nodup_range'

end ExecutionGraph

/-! ## The graph of the fluent API -/

/-- `Pipeline(graph)` follows `next_` from the operator that `compile` returns. -/
theorem Pipeline.ofGraph_eq_some {fuel : Nat} {keys : List OperatorId} {g : DataflowGraph U}
    {ops : Chain U} (h : Pipeline.ofGraph fuel keys g = some ops) :
    ∃ c, Compiler.compile fuel keys g = some (.ok c) ∧ c.chain fuel = some ops := by
  obtain ⟨r, hr, h⟩ := Option.bind_eq_some_iff.mp h
  cases r with
  | error e => cases h
  | ok c => exact ⟨c, hr, h⟩

/-- **The split is exact**, for a source with any calls behind it, each on the handle of the last
one. -/
theorem split_exact {func : U → Option (Event Record) × U} {captured : U}
    {lateness : Option UInt64} {calls : List (HandleCall U)} {h : StreamHandle}
    {b : DataflowGraphBuilder U} (hb : linear func captured lateness calls = some (h, b))
    {keys : List OperatorId} (hkeys : keys.Perm b.graph.inDegreeKeys) : ∃ ops ps,
      ops.map some = (.source { func, captured, allowedLateness := lateness.getD 0 } ::
        calls.map HandleCall.impl).map LogicalImpl.compile ∧
      (∀ fuel, b.nodes.length + b.edges.length ≤ fuel → b.build fuel = some b.graph ∧
        (∃ c, Compiler.compile fuel keys b.graph = some (.ok c) ∧ c.chain fuel = some ops) ∧
        ExecutionGraph.build fuel keys b.graph = some ps) ∧
      ExecutionGraph.Splits ops ps := by
  have hline := linear_line hb
  have hpath : b.graph.IsPath b.graph.operators := hline.isPath
  let source : SourceLogicalOperator U := { func, captured, allowedLateness := lateness.getD 0 }
  obtain ⟨rest, hrest⟩ : ∃ rest : Chain U,
      rest.map some = (calls.map HandleCall.impl).map LogicalImpl.compile := by
    refine ⟨(calls.map HandleCall.impl).filterMap LogicalImpl.compile, ?_⟩
    rw [List.map_filterMap_some_eq_filter_map_isSome]
    refine List.filter_eq_self.mpr fun o ho => ?_
    obtain ⟨impl, himpl, rfl⟩ := List.mem_map.mp ho
    obtain ⟨call, -, rfl⟩ := List.mem_map.mp himpl
    exact call.impl_compile
  have hops : b.graph.operators.map (·.compile) = (source.compile :: rest).map some := by
    have himpls : b.graph.operators.map (·.compile) =
        (b.nodes.map (·.op)).map LogicalImpl.compile := by
      simp [DataflowGraphBuilder.graph, StreamNode.toOperator, LogicalOperator.compile]
    rw [himpls, hline.impls, List.map_cons, List.map_cons, hrest]
    rfl
  have hne : b.nodes ≠ [] := fun hnil => by
    have himpls := hline.impls
    rw [hnil] at himpls
    cases himpls
  have hlen : b.graph.operators.length = b.nodes.length := List.length_map _
  refine ⟨source.compile :: rest, ExecutionGraph.pipelines 0 [source.compile] rest, ?_,
    fun fuel hfuel => ⟨?_, ?_, ?_⟩, ExecutionGraph.pipelines_splits rfl rfl rest⟩
  · rw [List.map_cons, List.map_cons, hrest]
    rfl
  · exact hline.fluent.forest.build_eq hne hfuel
  · exact Pipeline.ofGraph_eq_some (hpath.ofGraph_eq (fun hnil => hne (List.map_eq_nil_iff.mp hnil))
      hkeys hops (by omega))
  · exact hpath.build_eq hkeys rfl hops (by omega)

/-- A source, two windows next to each other, a map, and a window at the end. -/
def windowsCalls : List (HandleCall Unit) :=
  [.reduce (countTumblingWindow 2) (fun s es => (es.headD (eventAt 0), s)) (),
    .aggregate (timeWindow 10 10) (fun s es => (es.headD (eventAt 0), s)) (),
    .map (fun s e => (e, s)) (),
    .reduce (countTumblingWindow 3) (fun s es => (es.headD (eventAt 0), s)) ()]

theorem split_exact_windows : ∃ b : DataflowGraphBuilder Unit, ∃ ops ps,
    ops.map some = (.source { func := fun s => (none, s), captured := (), allowedLateness := 5 } ::
      windowsCalls.map HandleCall.impl).map LogicalImpl.compile ∧
    (∀ fuel, b.nodes.length + b.edges.length ≤ fuel → b.build fuel = some b.graph ∧
      (∃ c, Compiler.compile fuel [⟨5⟩, ⟨1⟩, ⟨3⟩, ⟨2⟩, ⟨4⟩] b.graph = some (.ok c) ∧
        c.chain fuel = some ops) ∧
      ExecutionGraph.build fuel [⟨5⟩, ⟨1⟩, ⟨3⟩, ⟨2⟩, ⟨4⟩] b.graph = some ps) ∧
    ExecutionGraph.Splits ops ps :=
  ⟨_, @split_exact Unit (fun s => (none, s)) () (some 5) windowsCalls ⟨⟨5⟩⟩ _ rfl _ (by decide)⟩

end Xtream
