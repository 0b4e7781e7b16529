import Xtream.Engine.LinearChain
import Xtream.Engine.Transform
import Xtream.Window.Refinement

/-!
# One chain and several pipelines

A linear graph can run as one chain, where a window passes its results to `next_`, or cut behind
every window, where it writes them to a channel that the next pipeline reads.

* `runChain_sinks`: what the sink receives at the end of one chain, stage by stage (`results`);
* `runInOrder_pipelines`: the pipelines, run one after the other, compute the same stages;
* `fused_eq_split`: the sink receives the same events.
-/

namespace Xtream

/-- The operators that work the same in both: maps, filters and time windows that advance. -/
inductive Fusable {U : Type} : PhysicalOperator U → Prop
  | map (op : MapPhysicalOperator U) : Fusable (.map op)
  | filter (op : FilterPhysicalOperator U) : Fusable (.filter op)
  | timeWindow (spec : WindowSpec) (func : U → List (Event Record) → Event Record × U)
      (captured : U) (hadv : 1 ≤ spec.advance) :
      Fusable (.timeWindow (.create spec func captured none))

namespace PhysicalOperator

variable {U : Type}

/-- No window end wraps, if the operator is a time window. -/
def NoWrap (xs : List StreamElement) : PhysicalOperator U → Prop
  | timeWindow op => op.RunNoWrap xs
  | _ => True

/-- The stage of a sink. -/
theorem stage_sink (op : SinkPhysicalOperator U) (fuel : Nat) (xs : List StreamElement) :
    (sink op).stage fuel xs = some ((events xs).map .sink) := by
  have hfeed : ∃ op', (sink op).feed fuel xs = some (sink op', (events xs).map .sink) := by
    induction xs generalizing op with
    | nil => exact ⟨op, rfl⟩
    | cons x xs ih =>
      obtain ⟨op', hop'⟩ := ih (op.execute x).1
      refine ⟨op', ?_⟩
      show (feed fuel (sink (op.execute x).1) xs).bind _ = _
      rw [hop']
      cases x <;> rfl
  obtain ⟨op', hop'⟩ := hfeed
  unfold stage
  rw [hop']
  simp [close]

end PhysicalOperator

namespace TimeWindowPhysicalOperator

variable {U : Type}

theorem consumeAll_attach (oc : Option ChannelId) (fuel : Nat) (op : TimeWindowPhysicalOperator U)
    (xs : List StreamElement) : (op.attach oc).consumeAll fuel xs =
      (op.consumeAll fuel xs).map fun r => (r.1.attach oc, r.2) := by
  induction xs generalizing op with
  | nil => rfl
  | cons x xs ih =>
    show ((op.attach oc).consume fuel x).bind _ = ((op.consume fuel x).bind _).map _
    rw [consume_attach]
    cases op.consume fuel x with
    | none => rfl
    | some s =>
      show ((s.1.attach oc).consumeAll fuel xs).bind _ = ((s.1.consumeAll fuel xs).bind _).map _
      rw [ih]
      cases s.1.consumeAll fuel xs <;> rfl

/-- A run does not depend on the output channel. -/
theorem runToClose_attach (oc : Option ChannelId) (fuel : Nat) (op : TimeWindowPhysicalOperator U)
    (xs : List StreamElement) : (op.attach oc).runToClose fuel xs = op.runToClose fuel xs := by
  show ((op.attach oc).consumeAll fuel xs).bind _ = (op.consumeAll fuel xs).bind _
  rw [consumeAll_attach]
  cases op.consumeAll fuel xs with
  | none => rfl
  | some r =>
    show ((r.1.attach oc).flush fuel).bind _ = (r.1.flush fuel).bind _
    rw [flush_attach]
    cases r.1.flush fuel <;> rfl

/-- The firings write their results to the output channel. -/
theorem foldl_perform_outputs {op : TimeWindowPhysicalOperator U} {ch : ChannelId}
    (h : op.outputChannel = some ch) (fs : List Firing) (chs : Channels) (q : List (Event Record))
    (b : Bool) (hch : chs ch = ⟨q, b⟩) : (op.outputs fs).foldl perform chs =
      Function.update chs ch ⟨q ++ fs.map (·.result), b⟩ := by
  induction fs generalizing chs q with
  | nil =>
    rw [List.map_nil, List.append_nil, ← hch, Function.update_eq_self]
    rfl
  | cons f fs ih =>
    rw [outputs_cons, h]
    show (op.outputs fs).foldl perform (Function.update chs ch ((chs ch).write f.result)) = _
    rw [ih _ (q ++ [f.result]), Function.update_idem]
    · simp
    · rw [Function.update_self, hch]
      rfl

end TimeWindowPhysicalOperator

namespace Chain

variable {U : Type}

/-- What comes out of the operators, stage by stage. -/
def results (fuel : Nat) : Chain U → List StreamElement → Option (List StreamElement)
  | [], xs => some xs
  | op :: rest, xs => (op.stage fuel xs).bind fun outs => results fuel rest (nexts outs)

/-- No window end of any time window wraps. -/
def NoWrap : Chain U → List StreamElement → Prop
  | [], _ => True
  | op :: rest, xs => op.NoWrap xs ∧
      ∀ fuel outs, op.stage fuel xs = some outs → NoWrap rest (nexts outs)

/-- What comes out of a time window does not depend on the fuel: one run is enough. -/
theorem noWrap_timeWindow {op : TimeWindowPhysicalOperator U} (hoc : op.outputChannel = none)
    {rest : Chain U} {xs : List StreamElement} (hnw : op.RunNoWrap xs) {n : Nat}
    {tr : List (List Firing)} (htr : op.runToClose n xs = some tr)
    (hrest : NoWrap rest (tr.flatten.map fun f => .event f.result)) :
    NoWrap (.timeWindow op :: rest) xs := by
  refine ⟨hnw, fun fuel outs houts => ?_⟩
  rw [PhysicalOperator.stage_timeWindow] at houts
  obtain ⟨tr', htr', rfl⟩ := Option.map_eq_some_iff.mp houts
  rw [TimeWindowPhysicalOperator.runToClose_unique htr' htr, nexts_append,
    TimeWindowPhysicalOperator.nexts_outputs hoc, hoc]
  simpa using hrest

/-! ## One chain -/

/-- What the sink receives at the end of one chain. -/
theorem runChain_sinks {ops : Chain U} (h : ∀ op ∈ ops, Fusable op) (sink : SinkPhysicalOperator U)
    (fuel : Nat) (xs : List StreamElement) : (runChain fuel (ops ++ [.sink sink]) xs).map sinks =
      (results fuel ops xs).map events := by
  induction ops generalizing xs with
  | nil =>
    rw [List.nil_append, runChain_singleton fuel rfl, PhysicalOperator.stage_sink]
    show some (sinks (((events xs).map .sink).filter fun o => o.next?.isNone)) = some (events xs)
    congr 1
    induction events xs with
    | nil => rfl
    | cons e es ih => exact congrArg (e :: ·) ih
  | cons op ops ih =>
    obtain ⟨hop, hops⟩ := List.forall_mem_cons.mp h
    have hsource : op.isSource = false := by cases hop <;> rfl
    have hsink : op.shape ≠ .sink := by cases hop <;> exact fun h => by cases h
    have hcalls : ∀ outs, op.stage fuel xs = some outs → ∀ o ∈ outs, o.next? = none →
        o.sink? = none := by
      intro outs houts o ho _
      obtain ⟨outs', rfl, hmakes⟩ := PhysicalOperator.stage_shape houts
      cases o with
      | sink e =>
        rcases List.mem_append.mp ho with ho | ho
        · exact absurd (hmakes _ ho).sink hsink
        · obtain ⟨ch, -, hch⟩ := List.mem_map.mp ho
          cases hch
      | _ => rfl
    refine (runChain_filterMap fuel hsource (ops ++ [.sink sink]) xs hcalls).trans ?_
    cases houts : op.stage fuel xs with
    | none => simp [results, houts]
    | some outs =>
      rw [results, houts, Option.bind_some, Option.bind_some]
      exact ih hops (nexts outs)

/-! ## Several pipelines -/

theorem outputChannels_elementwise {ops : Chain U} (h : ∀ op ∈ ops, op.isElementwise = true) :
    outputChannels ops = [] := by
  refine List.filterMap_eq_nil_iff.mpr fun s hs => ?_
  obtain ⟨op, hop, rfl⟩ := List.mem_map.mp hs
  have helem := h op hop
  cases op with
  | map op => rfl
  | filter op => rfl
  | _ => cases helem

/-- A pipeline with this root runs the chain behind it on the elements `xs`, from the channels `chs`;
`chs'` are the channels after the root has read its own. -/
def Feeds (root : PhysicalOperator U) (xs : List StreamElement) (n : Nat) (chs chs' : Channels) :
    Prop :=
  ∀ fuel rest, n ≤ fuel → rest ≠ [] →
    (∀ c, root.inputChannel = some c → c ∉ outputChannels rest) →
    (Pipeline.run fuel (root :: rest) chs).map (·.2) =
      (runChain fuel rest xs).map fun outs => (outs.foldl perform chs', outs)

theorem feeds_source {func : U → Option (Event Record) × U} {captured : U}
    {es : List (Event Record)} (hes : SourcePhysicalOperator.Yields func captured es)
    (lateness interval : UInt64) (chs : Channels) :
    Feeds (.source (.create func captured lateness interval)) (elements
      ((SourcePhysicalOperator.create func captured lateness interval).runToClose (es.length + 1)))
      (es.length + 1) chs chs :=
  fun _ rest hfuel _ _ => Pipeline.run_source rfl hes hfuel rest chs

theorem feeds_channelSource {c : ChannelId} {q : List (Event Record)} {chs : Channels}
    (hq : chs c = ⟨q, true⟩) : Feeds (U := U) (.channelSource ⟨c, false⟩) (q.map .event)
      (q.length + 1) chs (Function.update chs c ⟨[], true⟩) :=
  fun _ _ hfuel hrest hc => Pipeline.run_channelSource hrest (hc c rfl) hq hfuel

/-- The pipeline of a window writes the results to the channel, and closes it. -/
theorem Feeds.run_timeWindow {root : PhysicalOperator U} {xs : List StreamElement} {n : Nat}
    {chs chs' : Channels} (hroot : Feeds root xs n chs chs') {acc : Chain U}
    (hacc : ∀ op ∈ acc, op.isElementwise = true) {k : ChannelId}
    (hinput : ∀ c, root.inputChannel = some c → c < k) (hfresh : chs' k = {})
    {op : TimeWindowPhysicalOperator U} {fuel : Nat} (hfuel : n ≤ fuel)
    {tr : List (List Firing)} (htr : op.runToClose fuel (pass acc xs).2 = some tr) :
    ∃ outs, sinks outs = [] ∧
      (Pipeline.run fuel (root :: (acc ++ [(PhysicalOperator.timeWindow op).setOutputChannel k]))
        chs).map (·.2) =
          some (Function.update chs' k ⟨tr.flatten.map (·.result), true⟩, outs) := by
  let op' := op.attach (some k)
  let outs := op'.outputs tr.flatten ++ [.closeChannel k]
  have hmakes : ∀ o ∈ op'.outputs tr.flatten, (Shape.window (some k)).Makes o :=
    fun o ho => TimeWindowPhysicalOperator.makes_outputs ho
  have hsinks : sinks outs = [] := by
    refine List.filterMap_eq_nil_iff.mpr fun o ho => ?_
    rcases List.mem_append.mp ho with ho | ho
    · cases o with
      | sink e => exact (hmakes _ ho).elim
      | _ => rfl
    · obtain rfl := List.mem_singleton.mp ho
      rfl
  have hleave : ∀ o ∈ outs, o.next?.isNone = true := by
    intro o ho
    rcases List.mem_append.mp ho with ho | ho
    · obtain ⟨f, -, ho⟩ := List.mem_flatMap.mp ho
      rcases List.mem_cons.mp ho with rfl | ho
      · rfl
      · obtain rfl := List.mem_singleton.mp ho
        rfl
    · obtain rfl := List.mem_singleton.mp ho
      rfl
  have hrun : runChain fuel (acc ++ [.timeWindow op']) xs = some outs := by
    rw [runChain_pass hacc, runChain_singleton fuel rfl, PhysicalOperator.stage_timeWindow,
      TimeWindowPhysicalOperator.runToClose_attach, htr]
    exact congrArg some (List.filter_eq_self.mpr hleave)
  have hout : ∀ c, root.inputChannel = some c →
      c ∉ outputChannels (acc ++ [.timeWindow op']) := by
    intro c hc hmem
    rw [outputChannels_append, outputChannels_elementwise hacc] at hmem
    obtain rfl : c = k := List.mem_singleton.mp hmem
    exact Nat.lt_irrefl _ (hinput c hc)
  refine ⟨outs, hsinks, (hroot fuel _ hfuel (by simp) hout).trans ?_⟩
  rw [hrun, Option.map_some, List.foldl_append,
    TimeWindowPhysicalOperator.foldl_perform_outputs rfl _ _ [] false hfresh]
  simp [perform, InputChannel.close]

end Chain

namespace ExecutionGraph

variable {U : Type}

open Chain

theorem runInOrder_cons (fuel : Nat) (ops : Chain U) (rest : List (Chain U)) (chs : Channels) :
    runInOrder fuel (ops :: rest) chs =
      ((Pipeline.run fuel ops chs).map (·.2)).bind fun r =>
        (runInOrder fuel rest r.1).map (r.2 ++ ·) := by
  show (Pipeline.run fuel ops chs).bind _ = _
  cases Pipeline.run fuel ops chs with
  | none => rfl
  | some r =>
    show (runInOrder fuel rest r.2.1).bind _ = (runInOrder fuel rest r.2.1).map _
    cases runInOrder fuel rest r.2.1 <;> rfl

/-- The last pipeline ends in the sink. -/
theorem runInOrder_sink (sink : SinkPhysicalOperator U) {root : PhysicalOperator U} {acc : Chain U}
    {n : Nat} {xs : List StreamElement} {chs chs' : Channels} (hroot : Feeds root xs n chs chs')
    (hacc : ∀ op ∈ acc, op.isElementwise = true) {fuel : Nat} (hfuel : n ≤ fuel) :
    (runInOrder fuel [root :: (acc ++ [.sink sink])] chs).map sinks =
      some (events (pass acc xs).2) := by
  have hout : ∀ c, root.inputChannel = some c → c ∉ outputChannels (acc ++ [.sink sink]) := by
    intro c _ hmem
    rw [outputChannels_append, outputChannels_elementwise hacc] at hmem
    cases hmem
  have hsinks : (runChain fuel [.sink sink] (pass acc xs).2).map sinks =
      some (events (pass acc xs).2) :=
    runChain_sinks (List.forall_mem_nil _) sink fuel (pass acc xs).2
  rw [runInOrder_cons, hroot fuel _ hfuel (by simp) hout, runChain_pass hacc, ← hsinks]
  cases runChain fuel [.sink sink] (pass acc xs).2 with
  | none => rfl
  | some outs => simp [runInOrder]

/-- The pipelines, run one after the other, compute the stages of the chain. -/
theorem runInOrder_pipelines {ops : Chain U} (hops : ∀ op ∈ ops, Fusable op)
    (sink : SinkPhysicalOperator U) {root : PhysicalOperator U} {acc : Chain U} {k n : Nat}
    {xs : List StreamElement} {chs chs' : Channels} (hroot : Feeds root xs n chs chs')
    (hacc : ∀ op ∈ acc, op.isElementwise = true)
    (hinput : ∀ c, root.inputChannel = some c → c < k) (hfresh : ∀ j, k ≤ j → chs' j = {})
    (hnw : NoWrap ops (pass acc xs).2) : ∃ m ys, ∀ fuel, m ≤ fuel →
      results fuel ops (pass acc xs).2 = some ys ∧
      (runInOrder fuel (pipelines k (root :: acc) (ops ++ [.sink sink])) chs).map sinks =
        some (events ys) := by
  induction ops generalizing root acc k n xs chs chs' with
  | nil =>
    exact ⟨n, (pass acc xs).2, fun fuel hfuel => ⟨rfl, runInOrder_sink sink hroot hacc hfuel⟩⟩
  | cons op ops ih =>
    obtain ⟨hop, hrest⟩ := List.forall_mem_cons.mp hops
    obtain ⟨hnw, hnwRest⟩ := hnw
    by_cases helem : op.isElementwise = true
    · -- a map or a filter becomes part of the pipeline
      have hwindow : ¬ op.isWindow = true := by
        cases hop with
        | timeWindow => cases helem
        | _ => exact Bool.false_ne_true
      have hpass : (pass (acc ++ [op]) xs).2 = (op.pass (pass acc xs).2).2 :=
        pass_chain_append acc [op] xs
      have hstage := fun fuel => PhysicalOperator.stage_pass helem fuel (pass acc xs).2
      obtain ⟨m, ys, h⟩ := @ih hrest root (acc ++ [op]) k n xs chs chs' hroot
        (List.forall_mem_append.mpr ⟨hacc, List.forall_mem_singleton.mpr helem⟩) hinput hfresh (by
          rw [hpass, ← nexts_map_next (op.pass (pass acc xs).2).2]
          exact hnwRest 0 _ (hstage 0))
      refine ⟨m, ys, fun fuel hfuel => ⟨?_, ?_⟩⟩
      · rw [results, hstage, Option.bind_some, nexts_map_next, ← hpass]
        exact (h fuel hfuel).1
      · rw [List.cons_append, pipelines, if_neg hwindow]
        exact (h fuel hfuel).2
    · -- a window ends the pipeline, and the next one reads its results from the channel
      cases hop with
      | map op => exact absurd rfl helem
      | filter op => exact absurd rfl helem
      | timeWindow spec func captured hadv =>
        have hpos : 0 < spec.advance.toNat := UInt64.le_iff_toNat_le.mp hadv
        obtain ⟨l, tr, hrun, -, -⟩ := TimeWindowPhysicalOperator.runToClose_spec hpos
          (TimeWindowPhysicalOperator.create_tracks spec func captured none) hnw
        let op := TimeWindowPhysicalOperator.create spec func captured none
        let q := tr.flatten.map (·.result)
        have hstage : ∀ fuel, l ≤ fuel → (PhysicalOperator.timeWindow op).stage fuel
            (pass acc xs).2 = some (op.outputs tr.flatten) := by
          intro fuel hfuel
          rw [PhysicalOperator.stage_timeWindow, hrun fuel hfuel]
          exact congrArg some (List.append_nil _)
        have hnexts : nexts (op.outputs tr.flatten) = q.map .event := by
          rw [TimeWindowPhysicalOperator.nexts_outputs rfl, List.map_map]
          rfl
        obtain ⟨m, ys, h⟩ := @ih hrest (.channelSource ⟨k, false⟩) [] (k + 1) (q.length + 1)
          (q.map .event) (Function.update chs' k ⟨q, true⟩) _
          (feeds_channelSource (Function.update_self _ _ _)) (List.forall_mem_nil _)
          (fun c hc => by cases hc; exact Nat.lt_succ_self k)
          (fun j hj => by
            have hne : j ≠ k := by omega
            rw [Function.update_of_ne hne, Function.update_of_ne hne, hfresh j (by omega)])
          (hnexts ▸ hnwRest l _ (hstage l (Nat.le_refl l)))
        refine ⟨max n (max l m), ys, fun fuel hfuel => ⟨?_, ?_⟩⟩
        · rw [results, hstage fuel (by omega), Option.bind_some, hnexts]
          exact (h fuel (by omega)).1
        · obtain ⟨outs, hsinks, hfirst⟩ := hroot.run_timeWindow hacc hinput
            (hfresh k (Nat.le_refl k)) (by omega) (hrun fuel (by omega))
          show (runInOrder fuel ((root :: acc ++
            [(PhysicalOperator.timeWindow op).setOutputChannel k]) ::
              pipelines (k + 1) [.channelSource ⟨k, false⟩] (ops ++ [.sink sink])) chs).map
                sinks = _
          rw [runInOrder_cons, List.cons_append, hfirst, Option.bind_some, Option.map_map,
            ← (h fuel (by omega)).2]
          refine congrArg (fun f => Option.map f _) (funext fun outs' => ?_)
          rw [Function.comp_apply, sinks_append, hsinks, List.nil_append]

end ExecutionGraph

/-! ## A linear graph -/

/-- The operators for which both ways agree: maps, filters, and time windows that advance. -/
def LogicalImpl.Fusable {U : Type} : LogicalImpl U → Prop
  | .map _ => True
  | .filter _ => True
  | .window op => op.spec.type = .time ∧ 1 ≤ op.spec.advance
  | _ => False

theorem fusable_compileTransforms {U : Type} {transforms : List (LogicalImpl U)}
    (h : ∀ impl ∈ transforms, impl.Fusable) : ∀ op ∈ compileTransforms transforms, Fusable op := by
  intro op hop
  obtain ⟨impl, himpl, hcompile⟩ := List.mem_filterMap.mp hop
  have himpl' := h impl himpl
  cases impl with
  | map op =>
    cases hcompile
    exact .map _
  | filter op =>
    cases hcompile
    exact .filter _
  | window op =>
    obtain ⟨htype, hadv⟩ := himpl'
    cases hcompile
    unfold WindowLogicalOperator.compile
    rw [htype]
    exact .timeWindow _ _ _ hadv
  | _ => cases himpl'

/-- The elements that the source sends when it yields the events. -/
def SourceLogicalOperator.sends {U : Type} (source : SourceLogicalOperator U)
    (es : List (Event Record)) : List StreamElement :=
  elements ((SourcePhysicalOperator.create source.func source.captured source.allowedLateness
    source.watermarkInterval).runToClose (es.length + 1))

/-- **One chain and several pipelines** give the sink the same events. -/
theorem fused_eq_split {U : Type} {g : DataflowGraph U} {source : SourceLogicalOperator U}
    {transforms : List (LogicalImpl U)} {sink : SinkLogicalOperator U}
    (hg : g.IsLinear source transforms sink) (htransforms : ∀ impl ∈ transforms, impl.Fusable)
    {es : List (Event Record)}
    (hes : SourcePhysicalOperator.Yields source.func source.captured es)
    {keys keys' : List OperatorId} (hkeys : keys.Perm g.inDegreeKeys)
    (hkeys' : keys'.Perm g.inDegreeKeys)
    (hnw : Chain.NoWrap (compileTransforms transforms) (source.sends es)) :
    ∃ n received, ∀ fuel, n ≤ fuel →
      ((Pipeline.ofGraph fuel keys g).bind fun ops =>
        (Pipeline.run fuel ops fun _ => {}).map fun r => sinks r.2.2) = some received ∧
      ((ExecutionGraph.build fuel keys' g).bind fun pipelines =>
        (ExecutionGraph.runInOrder fuel pipelines fun _ => {}).map sinks) = some received := by
  have hfusable := fusable_compileTransforms htransforms
  obtain ⟨m, ys, h⟩ := ExecutionGraph.runInOrder_pipelines hfusable ⟨sink.func, sink.captured⟩
    (Chain.feeds_source hes source.allowedLateness source.watermarkInterval fun _ => {})
    (List.forall_mem_nil _) (fun c hc => by cases hc) (k := 0) (fun _ _ => rfl) hnw
  refine ⟨max m (max (es.length + 1) (transforms.length + 2)), events ys, fun fuel hfuel => ?_⟩
  obtain ⟨hresults, hsplit⟩ := h fuel (by omega)
  constructor
  · rw [hg.ofGraph_eq hkeys (by omega), Option.bind_some]
    have hrun := congrArg (Option.map fun r => sinks r.2) (@Pipeline.run_source U fuel
      (.create source.func source.captured source.allowedLateness source.watermarkInterval) es
      rfl hes (by omega) (compileTransforms transforms ++ [sink.compile]) fun _ => {})
    rw [Option.map_map, Option.map_map] at hrun
    refine hrun.trans ((Chain.runChain_sinks hfusable _ fuel _).trans ?_)
    show (Chain.results fuel _ (source.sends es)).map events = _
    rw [show Chain.results fuel _ (source.sends es) = some ys from hresults]
    rfl
  · rw [hg.build_eq hkeys' (by omega), Option.bind_some]
    exact hsplit

/-- The source yields the events 3 and 7; windows of 5 and then of 10. -/
def twoWindows : DataflowGraph (List (Event Record)) where
  operators :=
    [⟨⟨0⟩, "source", 1, .source ⟨fun u => (u.head?, u.tail), [eventAt 3, eventAt 7], 0, 1⟩⟩,
      ⟨⟨1⟩, "w5", 1, .window ⟨timeTumblingWindow 5, fun u es => (es.headD (eventAt 0), u), []⟩⟩,
      ⟨⟨2⟩, "w10", 1, .window ⟨timeTumblingWindow 10, fun u es => (es.headD (eventAt 0), u), []⟩⟩,
      ⟨⟨3⟩, "sink", 1, .sink ⟨fun u _ => u, []⟩⟩]
  edges :=
    [⟨⟨2⟩, ⟨2⟩, ⟨3⟩, .forward⟩, ⟨⟨1⟩, ⟨1⟩, ⟨2⟩, .forward⟩, ⟨⟨0⟩, ⟨0⟩, ⟨1⟩, .forward⟩]

theorem twoWindows_isLinear : twoWindows.IsLinear
    ⟨fun u => (u.head?, u.tail), [eventAt 3, eventAt 7], 0, 1⟩
    [.window ⟨timeTumblingWindow 5, fun u es => (es.headD (eventAt 0), u), []⟩,
      .window ⟨timeTumblingWindow 10, fun u es => (es.headD (eventAt 0), u), []⟩]
    ⟨fun u _ => u, []⟩ := by
  refine ⟨⟨twoWindows.operators, ⟨List.Perm.refl _, by decide, by decide⟩, rfl⟩, ?_⟩
  simp [LogicalImpl.isTransform]

theorem twoWindows_noWrap (size : UInt64) (hsize : 0 < size.toNat) {xs : List StreamElement}
    (hb : TimeWindowPhysicalOperator.Bounded (timeTumblingWindow size) xs)
    (hclose : SlidingWindow.nextEnd size.toNat (reach false xs) +
      size.toNat < 2 ^ 64) :
    (TimeWindowPhysicalOperator.create (timeTumblingWindow size)
      (fun u es => (es.headD (eventAt 0), u)) ([] : List (Event Record)) none).RunNoWrap xs :=
  TimeWindowPhysicalOperator.runNoWrap_of_bound hsize hb hclose

/-- Two windows behind each other. -/
theorem fused_eq_split_small : ∃ n received, ∀ fuel, n ≤ fuel →
    ((Pipeline.ofGraph fuel twoWindows.inDegreeKeys twoWindows).bind fun ops =>
      (Pipeline.run fuel ops fun _ => {}).map fun r => sinks r.2.2) = some received ∧
    ((ExecutionGraph.build fuel twoWindows.inDegreeKeys.reverse twoWindows).bind fun pipelines =>
      (ExecutionGraph.runInOrder fuel pipelines fun _ => {}).map sinks) = some received := by
  have hes : SourcePhysicalOperator.Yields (fun u : List (Event Record) => (u.head?, u.tail))
      [eventAt 3, eventAt 7] [eventAt 3, eventAt 7] := ⟨rfl, rfl, rfl⟩
  have htransforms : ∀ impl ∈ [LogicalImpl.window (U := List (Event Record))
      ⟨timeTumblingWindow 5, fun u es => (es.headD (eventAt 0), u), []⟩,
      .window ⟨timeTumblingWindow 10, fun u es => (es.headD (eventAt 0), u), []⟩],
      impl.Fusable := by
    intro impl himpl
    rcases List.mem_pair.mp himpl with rfl | rfl
    · exact ⟨rfl, by decide⟩
    · exact ⟨rfl, by decide⟩
  have htr : (TimeWindowPhysicalOperator.create (timeTumblingWindow 5)
      (fun u es => (es.headD (eventAt 0), u)) ([] : List (Event Record)) none).runToClose 5
      (SourceLogicalOperator.sends ⟨fun u => (u.head?, u.tail), [eventAt 3, eventAt 7], 0, 1⟩
        [eventAt 3, eventAt 7]) =
      some [[], [], [], [⟨5, [eventAt 3], eventAt 3⟩], [⟨10, [eventAt 7], eventAt 7⟩]] := by decide
  refine fused_eq_split twoWindows_isLinear htransforms hes (List.Perm.refl _)
    (List.reverse_perm _) (Chain.noWrap_timeWindow rfl
      (twoWindows_noWrap 5 (by decide) ?_ (by decide)) htr
      ⟨twoWindows_noWrap 10 (by decide) ?_ (by decide), fun _ _ _ => trivial⟩)
  · unfold TimeWindowPhysicalOperator.Bounded
    decide
  · unfold TimeWindowPhysicalOperator.Bounded
    decide

end Xtream
