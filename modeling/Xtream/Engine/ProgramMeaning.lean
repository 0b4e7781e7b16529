import Xtream.Engine.Meaning
import Xtream.Engine.Returns
import Xtream.Graph.Fluent

/-!
# Programs compute their meaning

* `runInOrder_window`: the first pipeline, up to the first window;
* `runInOrder_denotes`: the pipelines, run one after the other, compute the meaning of the operators;
* `program_means`: so does the program, whatever its threads do.
-/

namespace Xtream

open KahnNetwork

variable {U : Type}

/-! ## The pipelines in order -/

/-- A chain that ends in a window that writes to a channel. -/
theorem Chain.runChain_writes {acc : Chain U} (hacc : ∀ op ∈ acc, op.isElementwise = true)
    {k : ChannelId} {op : PhysicalOperator U} (hop : op.shape = .window (some k)) {fuel : Nat}
    {xs : List StreamElement} {q : List (Event Record)} {outs : List Output}
    (hwrites : Writes k q outs) (hstage : op.stage fuel (pass acc xs).2 = some outs) :
    runChain fuel (acc ++ [op]) xs = some outs := by
  have hsource : op.isSource = false := by
    cases op with
    | source op => cases hop
    | channelSource op => cases hop
    | _ => rfl
  rw [runChain_pass hacc, runChain_singleton fuel hsource, hstage, Option.map_some]
  exact congrArg some (List.filter_eq_self.mpr fun o ho => by rw [hwrites.leave o ho]; rfl)

/-- The pipeline of a window that writes to a channel. -/
theorem Chain.Feeds.run_writes {root : PhysicalOperator U} {xs : List StreamElement} {n : Nat}
    {chs chs' : Channels} (hroot : Feeds root xs n chs chs') {acc : Chain U}
    (hacc : ∀ op ∈ acc, op.isElementwise = true) {k : ChannelId}
    (hinput : ∀ c, root.inputChannel = some c → c < k) (hfresh : chs' k = {})
    {op : PhysicalOperator U} (hop : op.shape = .window (some k)) {fuel : Nat} (hfuel : n ≤ fuel)
    {q : List (Event Record)} {outs : List Output} (hwrites : Writes k q outs)
    (hstage : op.stage fuel (pass acc xs).2 = some outs) :
    (Pipeline.run fuel (root :: (acc ++ [op])) chs).map (·.2) =
      some (Function.update chs' k ⟨q, true⟩, outs) := by
  have hout : ∀ c, root.inputChannel = some c → c ∉ outputChannels (acc ++ [op]) := by
    intro c hc hmem
    rw [outputChannels_append, outputChannels_elementwise hacc] at hmem
    have hk : outputChannels [op] = [k] := by
      unfold outputChannels shapes
      rw [List.map_singleton, hop]
      rfl
    rw [hk] at hmem
    obtain rfl : c = k := List.mem_singleton.mp hmem
    exact Nat.lt_irrefl _ (hinput c hc)
  rw [hroot fuel _ hfuel (by simp) hout, runChain_writes hacc hop hwrites hstage, Option.map_some,
    hwrites.perform chs' hfresh]

namespace ExecutionGraph

open Chain

/-- Maps and filters become part of the pipeline. -/
theorem pipelines_elementwise {ops : Chain U} (hops : ∀ op ∈ ops, op.isElementwise = true) (n : Nat)
    (acc rest : Chain U) : pipelines n acc (ops ++ rest) = pipelines n (acc ++ ops) rest := by
  induction ops generalizing acc with
  | nil => rw [List.nil_append, List.append_nil]
  | cons op ops ih =>
    obtain ⟨hop, hops⟩ := List.forall_mem_cons.mp hops
    have hwindow : ¬ op.isWindow = true := by
      cases op with
      | map op => exact Bool.false_ne_true
      | filter op => exact Bool.false_ne_true
      | _ => cases hop
    rw [List.cons_append, pipelines, if_neg hwindow, ih hops, List.append_assoc]
    rfl

/-- The first window ends the pipeline. -/
theorem pipelines_window {pre : List (LogicalImpl U)}
    (hpre : ∀ impl ∈ pre, impl.isElementwise = true) (op : WindowLogicalOperator U)
    (post : List (LogicalImpl U)) (n : Nat) (root : PhysicalOperator U) (ops : Chain U) :
    pipelines n [root] (compileTransforms (pre ++ .window op :: post) ++ ops) =
      (root :: (compileTransforms pre ++ [op.compile.setOutputChannel n])) ::
        pipelines (n + 1) [.channelSource ⟨n, false⟩] (compileTransforms post ++ ops) := by
  have hcompile : compileTransforms (pre ++ .window op :: post) =
      compileTransforms pre ++ op.compile :: compileTransforms post := List.filterMap_append
  have hwindow : op.compile.isWindow = true := by
    unfold WindowLogicalOperator.compile
    cases op.spec.type <;> rfl
  rw [hcompile, List.append_assoc, pipelines_elementwise (isElementwise_compileTransforms hpre)]
  exact if_pos hwindow

/-- The pipeline of the first window: the next pipeline reads from the channel what the function
makes of the window's vectors. -/
theorem runInOrder_window {pre post : List (LogicalImpl U)} {op : WindowLogicalOperator U}
    {bound : Nat} (hpre : ∀ impl ∈ pre, impl.isElementwise = true)
    (hop : op.spec.Fits bound) (ops : Chain U) {root : PhysicalOperator U}
    {k n : Nat} {xs : List StreamElement} {chs chs' : Channels} (hroot : Feeds root xs n chs chs')
    (hinput : ∀ c, root.inputChannel = some c → c < k) (hfresh : chs' k = {})
    (hin : InTime ((compileTransforms pre).pass xs).2)
    (hbelow : Below bound ((compileTransforms pre).pass xs).2) :
    ∃ m vs, op.spec.Cuts ((compileTransforms pre).survivors (events xs)) vs ∧ ∀ fuel, m ≤ fuel →
      (runInOrder fuel (pipelines k [root]
        (compileTransforms (pre ++ .window op :: post) ++ ops)) chs).map sinks =
      (runInOrder fuel (pipelines (k + 1) [.channelSource ⟨k, false⟩]
        (compileTransforms post ++ ops)) (Function.update chs' k
          ⟨(CountWindowPhysicalOperator.applyAll op.func op.captured vs).1, true⟩)).map sinks := by
  obtain ⟨l, outs, vs, hcuts, hwrites, hstage⟩ := op.stage_cuts hop hin hbelow k
  rw [Chain.events_pass] at hcuts
  refine ⟨max n l, vs, hcuts, fun fuel hfuel => ?_⟩
  have helem := isElementwise_compileTransforms hpre
  have hfirst := hroot.run_writes helem hinput hfresh (op.compile_shape k) (by omega) hwrites
    (hstage fuel (by omega))
  rw [pipelines_window hpre, runInOrder_cons, hfirst, Option.bind_some, Option.map_map]
  refine congrArg (fun f => Option.map f _) (funext fun outs' => ?_)
  rw [Function.comp_apply, sinks_append, hwrites.sinks, List.nil_append]

/-- The pipelines in order compute the meaning of their operators. -/
theorem runInOrder_denotes {transforms : List (LogicalImpl U)} (hsegments : Segmented transforms)
    {bound : Nat} (hwithin : ∀ impl ∈ transforms, impl.Within bound) (sink : SinkPhysicalOperator U)
    {root : PhysicalOperator U} {k n : Nat} {xs : List StreamElement} {chs chs' : Channels}
    (hroot : Feeds root xs n chs chs') (hinput : ∀ c, root.inputChannel = some c → c < k)
    (hfresh : ∀ j, k ≤ j → chs' j = {}) (hon : OnTime transforms xs) (hbelow : Below bound xs) :
    ∃ m received, Denotes transforms (events xs) received ∧ ∀ fuel, m ≤ fuel →
      (runInOrder fuel (pipelines k [root] (compileTransforms transforms ++ [.sink sink]))
        chs).map sinks = some received := by
  induction hsegments generalizing root k n xs chs chs' with
  | @last pre hpre =>
    have helem := isElementwise_compileTransforms hpre
    refine ⟨n, _, denotes_survivors hpre (events xs), fun fuel hfuel => ?_⟩
    rw [pipelines_elementwise helem, ← Chain.events_pass]
    exact runInOrder_sink sink hroot helem hfuel
  | @window pre op post hpre hpost ih =>
    obtain ⟨hwithinPre, hwithinRest⟩ := List.forall_mem_append.mp hwithin
    obtain ⟨hop, hwithinPost⟩ := List.forall_mem_cons.mp hwithinRest
    have hsurvivors := denotes_survivors hpre (events xs)
    have hearly := hsurvivors.bounded hwithinPre (below_iff.mp hbelow).1
    obtain ⟨m, vs, hcuts, hfirst⟩ := @runInOrder_window U pre post op bound hpre hop.1 [.sink sink]
      root k n xs chs chs' hroot hinput (hfresh k (Nat.le_refl k)) (hon.inTime_pass hpre) (by
        rw [below_iff, Chain.events_pass, Chain.watermarks_pass]
        exact ⟨hearly, (below_iff.mp hbelow).2⟩)
    -- the next pipeline reads the results of the window from the channel
    have hwindow := LogicalImpl.Means.window hcuts
    let q := (CountWindowPhysicalOperator.applyAll op.func op.captured vs).1
    have hq : ∀ e ∈ q, time e ≤ bound := hwindow.bounded hop hearly
    obtain ⟨m', received, hdenotes, hrun⟩ := @ih hwithinPost (.channelSource ⟨k, false⟩) (k + 1)
      (q.length + 1) (q.map .event) (Function.update chs' k ⟨q, true⟩) _
      (feeds_channelSource (Function.update_self _ _ _))
      (fun c hc => by cases hc; exact Nat.lt_succ_self k)
      (fun j hj => by
        have hne : j ≠ k := by omega
        rw [Function.update_of_ne hne, Function.update_of_ne hne, hfresh j (by omega)])
      (onTime_map_event post q) (below_map_event hq)
    rw [events_map_event] at hdenotes
    refine ⟨max m m', received, hsurvivors.append (.cons hwindow hdenotes), fun fuel hfuel => ?_⟩
    rw [hfirst fuel (by omega), hrun fuel (by omega)]

end ExecutionGraph

/-! ## The program -/

/-- The timestamps of what the source sends are those of its events, or below. -/
theorem below_schedule {lateness interval sourceId : UInt64} {es : List (Event Record)} {bound : Nat}
    (h : maxTime es ≤ bound) :
    Below bound (elements (SourcePhysicalOperator.schedule lateness interval sourceId [] es)) := by
  rw [below_iff, events_elements, SourcePhysicalOperator.forwarded_schedule, watermarks_elements]
  refine ⟨fun e he => (time_le_maxTime he).trans h, fun wm hwm => ?_⟩
  have hle := SourcePhysicalOperator.timestamp_le hwm
  rw [List.nil_append] at hle
  omega

/-- What a source sends: its events, in time and below the bound. -/
theorem SourceLogicalOperator.feeds {source : SourceLogicalOperator U} {es : List (Event Record)}
    (hes : SourcePhysicalOperator.Yields source.func source.captured es)
    (hdisorder : BoundedDisorder source.allowedLateness es) {bound : Nat}
    (hbound : maxTime es ≤ bound) :
    let xs := elements (SourcePhysicalOperator.schedule source.allowedLateness
      source.watermarkInterval 0 [] es)
    Chain.Feeds source.compile xs (es.length + 1) (fun _ => {}) (fun _ => {}) ∧ events xs = es ∧
      InTime xs ∧ Below bound xs := by
  refine ⟨?_, ?_, inTime_schedule hdisorder, below_schedule hbound⟩
  · rw [← SourcePhysicalOperator.runToClose_eq_schedule hes]
    exact Chain.feeds_source hes _ _ _
  · rw [events_elements, SourcePhysicalOperator.forwarded_schedule]

/-- Bounded disorder, event by event. -/
theorem boundedDisorder_of_pairwise {lateness : UInt64} {es : List (Event Record)}
    (h : es.Pairwise fun e e' => time e ≤ time e' + lateness.toNat) :
    BoundedDisorder lateness es := by
  rintro before e after rfl
  exact Nat.le_of_lt_succ (maxTime_lt (Nat.succ_pos _) fun e' he' =>
    Nat.lt_succ_of_le ((List.pairwise_append.mp h).2.2 e' he' e List.mem_cons_self))

/-- The pipelines of a linear graph, in order, compute the meaning of its operators. -/
theorem DataflowGraph.IsLinear.inOrder_denotes {g : DataflowGraph U}
    {source : SourceLogicalOperator U} {transforms : List (LogicalImpl U)}
    {sink : SinkLogicalOperator U} (hg : g.IsLinear source transforms sink)
    {es : List (Event Record)}
    (hes : SourcePhysicalOperator.Yields source.func source.captured es)
    (hdisorder : BoundedDisorder source.allowedLateness es) {bound : Nat}
    (hbound : maxTime es ≤ bound) (hwithin : ∀ impl ∈ transforms, impl.Within bound)
    (hkeeps : ∀ impl ∈ transforms.takeWhile (fun impl => !impl.isWindow), impl.KeepsTime) :
    ∃ fuel outs, ExecutionGraph.runInOrder fuel (ExecutionGraph.pipelines 0 [source.compile]
        (compileTransforms transforms ++ [sink.compile])) (fun _ => {}) = some outs ∧
      Denotes transforms es (sinks outs) := by
  obtain ⟨hfeeds, hevents, hin, hbelow⟩ := source.feeds hes hdisorder hbound
  obtain ⟨m, received, hdenotes, hrun⟩ := ExecutionGraph.runInOrder_denotes
    (segmented_of_isTransform hg.transforms) hwithin ⟨sink.func, sink.captured⟩ hfeeds
    (fun _ h => by cases h) (fun j (_ : 0 ≤ j) => rfl) (.inr ⟨hin, hkeeps⟩) hbelow
  rw [hevents] at hdenotes
  obtain ⟨outs, houts, rfl⟩ := Option.map_eq_some_iff.mp (hrun m (Nat.le_refl m))
  exact ⟨m, outs, houts, hdenotes⟩

/-- **The program computes its meaning.** A program that submits the pipelines of a linear graph to a
slot engine with a slot for each, and calls `execute`: whatever the threads do, the slots take a
bounded number of steps and `execute` can return, and when it has returned the sink has received what
the operators of the graph make of the events of the source. -/
theorem program_means {g : DataflowGraph U} {source : SourceLogicalOperator U}
    {transforms : List (LogicalImpl U)} {sink : SinkLogicalOperator U}
    (hg : g.IsLinear source transforms sink) {keys : List OperatorId}
    (hkeys : keys.Perm g.inDegreeKeys) {es : List (Event Record)}
    (hes : SourcePhysicalOperator.Yields source.func source.captured es)
    (hdisorder : BoundedDisorder source.allowedLateness es) {bound : Nat}
    (hbound : maxTime es ≤ bound) (hwithin : ∀ impl ∈ transforms, impl.Within bound)
    (hkeeps : ∀ impl ∈ transforms.takeWhile (fun impl => !impl.isWindow), impl.KeepsTime) :
    ∃ k pipelines, (∀ fuel, k ≤ fuel → ExecutionGraph.build fuel keys g = some pipelines) ∧
      ∃ steps, ∀ t s, Steps Program.Step (Program.start pipelines.length pipelines) t s →
        Program.slotSteps t ≤ steps ∧
        (∃ t' s', Steps Program.Step s t' s' ∧ s'.engine.execute = .idle) ∧
        (s.engine.execute = .idle →
          Denotes transforms es (sinks (calls (Program.jobActs t)))) := by
  obtain ⟨fuel, outs, houts, hdenotes⟩ := hg.inOrder_denotes hes hdisorder hbound hwithin hkeeps
  obtain ⟨steps, hsteps⟩ := Program.ends_of_inOrder hg.pieces houts
  refine ⟨transforms.length + 2, _, fun fuel hfuel => hg.build_eq hkeys hfuel, steps,
    fun t s ht => ⟨(hsteps t s ht).1, (hsteps t s ht).2, fun hidle => ?_⟩⟩
  rw [(hg.pieces.sink_agrees houts (Program.steps_job ht).2).2
    (Program.job_finished_of_idle ht hidle)]
  exact hdenotes

/-! ## `main` (`src/main.cpp`) -/

namespace Main

def makeRecord (v : Int32) : Record :=
  (Record.mk (some (StreamSchema.addField {} "value" .i32)) []).addField (.makeI32 v)

/-- `payload().field(0).as_i32().raw()`; 0 where the program stops. -/
def raw (e : Event Record) : Int32 :=
  match e.payload.field 0 with
  | .ok v => match v.asI32 with
    | .ok n => n
    | .error _ => 0
  | .error _ => 0

def count (counter : Int32) : Option (Event Record) × Int32 :=
  let counter := counter + 1
  if counter > 15 then (none, counter)
  else (some ⟨makeRecord counter, counter.toInt64.toUInt64, []⟩, counter)

def double (u : Int32) (e : Event Record) : Event Record × Int32 :=
  (⟨makeRecord (raw e * 2), e.timestamp, []⟩, u)

def sum (u : Int32) (events : List (Event Record)) : Event Record × Int32 :=
  (⟨makeRecord ((events.map raw).foldl (· + ·) 0),
    (events.getLast?.map (·.timestamp)).getD 0, []⟩, u)

/-- The calls of the builder. -/
def graph : Option (DataflowGraph Int32) := do
  let r ← linear count 0 none
    [.map double 0, .reduce (countTumblingWindow 5) sum 0, .sink (fun u _ => u) 0]
  r.2.build 10

theorem graph_isLinear : ∃ g, graph = some g ∧ g.IsLinear ⟨count, 0, 0, 100⟩
    [.map ⟨double, 0⟩, .window ⟨countTumblingWindow 5, sum, 0⟩] ⟨fun u _ => u, 0⟩ := by
  refine ⟨_, rfl, ⟨_, ⟨List.Perm.refl _, by decide, by decide⟩, rfl⟩, ?_⟩
  simp [LogicalImpl.isTransform]

def inputs : List (Event Record) :=
  [1, 2, 3, 4, 5, 6, 7, 8, 9, 10, 11, 12, 13, 14, 15].map fun n : Int32 =>
    ⟨makeRecord n, n.toInt64.toUInt64, []⟩

theorem count_yields : SourcePhysicalOperator.Yields count 0 inputs := by
  repeat' constructor

theorem inputs_disorder : BoundedDisorder 0 inputs :=
  boundedDisorder_of_pairwise (by decide +kernel)

theorem inputs_bound : maxTime inputs ≤ 15 := by decide +kernel

theorem within : ∀ impl ∈ [LogicalImpl.map ⟨double, 0⟩, .window ⟨countTumblingWindow 5, sum, 0⟩],
    impl.Within 15 := by
  refine List.forall_mem_cons.mpr ⟨fun _ _ he => he, List.forall_mem_singleton.mpr
    ⟨⟨by decide, fun _ => by decide, fun h => (by cases h)⟩, fun _ es hne hes => ?_⟩⟩
  show ((es.getLast?.map Event.timestamp).getD 0).toNat ≤ 15
  rw [List.getLast?_eq_some_getLast hne]
  exact hes _ (List.getLast_mem hne)

theorem keepsTime : ∀ impl ∈ [LogicalImpl.map ⟨double, 0⟩,
    .window ⟨countTumblingWindow 5, sum, 0⟩].takeWhile fun impl => !impl.isWindow,
    impl.KeepsTime := List.forall_mem_singleton.mpr fun _ _ => rfl

end Main

/-- `main`: whatever its threads do, it ends, and the sink has received the sums of the doubled
numbers, five at a time. -/
theorem program_means_main : ∃ g k pipelines steps, Main.graph = some g ∧
    (∀ fuel, k ≤ fuel → ExecutionGraph.build fuel g.inDegreeKeys g = some pipelines) ∧
    ∀ t s, Steps Program.Step (Program.start pipelines.length pipelines) t s →
      Program.slotSteps t ≤ steps ∧
      (∃ t' s', Steps Program.Step s t' s' ∧ s'.engine.execute = .idle) ∧
      (s.engine.execute = .idle → (sinks (calls (Program.jobActs t))).map
        (fun e => (Main.raw e, e.timestamp)) = [(30, 5), (80, 10), (130, 15)]) := by
  obtain ⟨g, hgraph, hg⟩ := Main.graph_isLinear
  obtain ⟨k, pipelines, hbuild, steps, h⟩ := program_means hg (List.Perm.refl g.inDegreeKeys)
    Main.count_yields Main.inputs_disorder Main.inputs_bound Main.within Main.keepsTime
  refine ⟨g, k, pipelines, steps, hgraph, hbuild, fun t s ht => ⟨(h t s ht).1, (h t s ht).2.1,
    fun hidle => ?_⟩⟩
  have hmeans := (h t s ht).2.2 hidle
  generalize sinks (calls (Program.jobActs t)) = received at hmeans
  -- the map and the count window determine what the sink receives
  rcases hmeans with _ | ⟨⟨⟩, hmeans⟩
  rcases hmeans with _ | ⟨hwindow, hmeans⟩
  cases hmeans
  rcases hwindow with _ | _ | ⟨_ | htype⟩
  · decide +kernel
  · cases htype

end Xtream
