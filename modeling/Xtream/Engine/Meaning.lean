import Xtream.Engine.FusedSplit
import Xtream.Engine.ExecutionGraphJson
import Xtream.Engine.Batch
import Xtream.Window.Results

/-!
# What a program computes

The meaning of a linear graph is the composition of what its operators do to whole lists of events:
a map and a filter go through the list, a count window cuts it into slices, and a time window
evaluates all its windows over the list at once. There are no watermarks, channels or threads in it.

* `Denotes`: the meaning of the operators between the source and the sink;
* `denotes_survivors`: maps and filters compute it;
* `stage_cuts`: so does a window that writes to a channel.
-/

namespace Xtream

open SlidingWindow

variable {U : Type}

/-! ## The meaning -/

/-- A map's function, called on one event after the other. -/
def mapAll (func : U → Event Record → Event Record × U) : U → List (Event Record) →
    List (Event Record)
  | _, [] => []
  | u, e :: es => (func u e).1 :: mapAll func (func u e).2 es

/-- A filter's function, called on one event after the other. -/
def filterAll (func : U → Event Record → (Bool × Event Record) × U) : U → List (Event Record) →
    List (Event Record)
  | _, [] => []
  | u, e :: es =>
    if (func u e).1.1 then (func u e).1.2 :: filterAll func (func u e).2 es
    else filterAll func (func u e).2 es

/-- The vectors that the function of a count window is called on: the full windows, and at the end
what the next window would have started with. -/
def countVectors (spec : WindowSpec) (es : List (Event Record)) : List (List (Event Record)) :=
  let rest := Slices.rest spec.size.toNat (CountWindowPhysicalOperator.stepOf spec) es
  CountWindowPhysicalOperator.vectors spec es ++ if rest = [] then [] else [rest]

/-- The vectors that a window makes of a list of events. -/
inductive WindowSpec.Cuts (spec : WindowSpec) (es : List (Event Record)) :
    List (List (Event Record)) → Prop
  | count : spec.type = .count → Cuts spec es (countVectors spec es)
  | time {calls : List (Nat × List (Event Record))} : spec.type = .time →
      Batch time spec.size.toNat spec.advance.toNat es calls →
      (∀ c ∈ calls, SortedByTime c.2) → Cuts spec es (calls.map Prod.snd)

/-- What an operator makes of a list of events. -/
inductive LogicalImpl.Means : LogicalImpl U → List (Event Record) → List (Event Record) → Prop
  | map (op : MapLogicalOperator U) (es : List (Event Record)) :
      Means (.map op) es (mapAll op.func op.captured es)
  | filter (op : FilterLogicalOperator U) (es : List (Event Record)) :
      Means (.filter op) es (filterAll op.func op.captured es)
  | window {op : WindowLogicalOperator U} {es : List (Event Record)}
      {vs : List (List (Event Record))} : op.spec.Cuts es vs →
      Means (.window op) es (CountWindowPhysicalOperator.applyAll op.func op.captured vs).1

/-- What operators make of a list of events, one after the other. -/
inductive Denotes : List (LogicalImpl U) → List (Event Record) → List (Event Record) → Prop
  | nil (es : List (Event Record)) : Denotes [] es es
  | cons {impl : LogicalImpl U} {transforms : List (LogicalImpl U)}
      {es es' es'' : List (Event Record)} : impl.Means es es' → Denotes transforms es' es'' →
      Denotes (impl :: transforms) es es''

/-! ## What is asked of the operators -/

/-- A window that moves on, and whose ends have room above a bound on the timestamps. -/
structure WindowSpec.Fits (spec : WindowSpec) (bound : Nat) : Prop where
  advance : 0 < spec.advance.toNat
  size : spec.type = .count → 0 < spec.size.toNat
  room : spec.type = .time → bound + spec.size.toNat + 2 * spec.advance.toNat < 2 ^ 64

/-- The functions keep the timestamps below a bound, and the windows have room above it. -/
def LogicalImpl.Within (bound : Nat) : LogicalImpl U → Prop
  | .map op => ∀ u e, time e ≤ bound → time (op.func u e).1 ≤ bound
  | .filter op => ∀ u e, time e ≤ bound → time (op.func u e).1.2 ≤ bound
  | .window op => op.spec.Fits bound ∧
      ∀ u es, es ≠ [] → (∀ e ∈ es, time e ≤ bound) → time (op.func u es).1 ≤ bound
  | _ => True

/-- A map or a filter that leaves the timestamps alone. -/
def LogicalImpl.KeepsTime : LogicalImpl U → Prop
  | .map op => ∀ u e, (op.func u e).1.timestamp = e.timestamp
  | .filter op => ∀ u e, (op.func u e).1.2.timestamp = e.timestamp
  | _ => True

/-- No event comes behind a watermark above it until the first window: there are no watermarks, or
the operators before the first window leave the timestamps alone. -/
def OnTime (transforms : List (LogicalImpl U)) (xs : List StreamElement) : Prop :=
  watermarks xs = [] ∨
    (InTime xs ∧ ∀ impl ∈ transforms.takeWhile (fun impl => !impl.isWindow), impl.KeepsTime)

@[simp] theorem watermarks_map_event (es : List (Event Record)) :
    watermarks (es.map .event) = [] := by
  induction es with
  | nil => rfl
  | cons e es ih => exact ih

theorem inTime_of_watermarks_nil {xs : List StreamElement} (h : watermarks xs = []) :
    InTime xs := by
  refine List.pairwise_of_forall_mem_list fun x hx y _ wm e hwm _ => ?_
  subst hwm
  have hmem := mem_watermarks.mpr hx
  rw [h] at hmem
  cases hmem

/-! ## Maps and filters -/

theorem events_pass_map (op : MapPhysicalOperator U) (xs : List StreamElement) :
    events ((PhysicalOperator.map op).pass xs).2 = mapAll op.func op.captured (events xs) := by
  induction xs generalizing op with
  | nil => rfl
  | cons x xs ih =>
    cases x with
    | event e =>
      show events ([StreamElement.event (op.func op.captured e).1] ++
        ((PhysicalOperator.map { op with captured := (op.func op.captured e).2 }).pass xs).2) = _
      rw [events_append, ih]
      rfl
    | watermark wm => exact ih op

theorem events_pass_filter (op : FilterPhysicalOperator U) (xs : List StreamElement) :
    events ((PhysicalOperator.filter op).pass xs).2 = filterAll op.pred op.captured (events xs) := by
  induction xs generalizing op with
  | nil => rfl
  | cons x xs ih =>
    cases x with
    | event e =>
      have hih := ih { op with captured := (op.pred op.captured e).2 }
      rw [events_cons_event, filterAll]
      by_cases hp : (op.pred op.captured e).1.1 = true
      · simpa [PhysicalOperator.pass, PhysicalOperator.passOne, FilterPhysicalOperator.execute, hp,
          nexts, Output.next?] using hih
      · simpa [PhysicalOperator.pass, PhysicalOperator.passOne, FilterPhysicalOperator.execute, hp,
          nexts, Output.next?] using hih
    | watermark wm => exact ih op

/-! ## Maps and filters before a window -/

/-- A map or a filter. -/
def LogicalImpl.isElementwise : LogicalImpl U → Bool
  | .map _ => true
  | .filter _ => true
  | _ => false

/-- Maps and filters, alone or in front of a window with such a list behind it. -/
inductive Segmented : List (LogicalImpl U) → Prop
  | last {pre : List (LogicalImpl U)} : (∀ impl ∈ pre, impl.isElementwise = true) → Segmented pre
  | window {pre : List (LogicalImpl U)} (op : WindowLogicalOperator U)
      {post : List (LogicalImpl U)} : (∀ impl ∈ pre, impl.isElementwise = true) → Segmented post →
      Segmented (pre ++ .window op :: post)

theorem Segmented.cons {impl : LogicalImpl U} (himpl : impl.isElementwise = true)
    {transforms : List (LogicalImpl U)} (h : Segmented transforms) :
    Segmented (impl :: transforms) := by
  cases h with
  | last hpre => exact .last (List.forall_mem_cons.mpr ⟨himpl, hpre⟩)
  | @window pre op post hpre hpost =>
    rw [← List.cons_append]
    exact .window op (List.forall_mem_cons.mpr ⟨himpl, hpre⟩) hpost

/-- Every list of transforms is cut by its windows. -/
theorem segmented_of_isTransform {transforms : List (LogicalImpl U)}
    (h : ∀ impl ∈ transforms, impl.isTransform = true) : Segmented transforms := by
  induction transforms with
  | nil => exact .last (List.forall_mem_nil _)
  | cons impl transforms ih =>
    obtain ⟨himpl, hrest⟩ := List.forall_mem_cons.mp h
    cases impl with
    | map op => exact .cons rfl (ih hrest)
    | filter op => exact .cons rfl (ih hrest)
    | window op => exact .window op (List.forall_mem_nil _) (ih hrest)
    | _ => cases himpl

section

variable {pre : List (LogicalImpl U)}

theorem isElementwise_compileTransforms (hpre : ∀ impl ∈ pre, impl.isElementwise = true) :
    ∀ op ∈ compileTransforms pre, op.isElementwise = true := by
  intro op hop
  obtain ⟨impl, himpl, hcompile⟩ := List.mem_filterMap.mp hop
  have helem := hpre impl himpl
  cases impl with
  | map op =>
    cases hcompile
    rfl
  | filter op =>
    cases hcompile
    rfl
  | _ => cases helem

theorem compileTransforms_keepsTime (hpre : ∀ impl ∈ pre, impl.isElementwise = true)
    (hkeeps : ∀ impl ∈ pre, impl.KeepsTime) : ∀ op ∈ compileTransforms pre, op.KeepsTime := by
  intro op hop
  obtain ⟨impl, himpl, hcompile⟩ := List.mem_filterMap.mp hop
  have helem := hpre impl himpl
  have hkeep := hkeeps impl himpl
  cases impl with
  | map op =>
    cases hcompile
    exact hkeep
  | filter op =>
    cases hcompile
    exact hkeep
  | _ => cases helem

/-- Maps and filters compute their meaning. -/
theorem denotes_survivors (hpre : ∀ impl ∈ pre, impl.isElementwise = true)
    (es : List (Event Record)) :
    Denotes pre es ((compileTransforms pre).survivors es) := by
  induction pre generalizing es with
  | nil =>
    rw [show (compileTransforms ([] : List (LogicalImpl U))).survivors es = es from
      events_map_event es]
    exact .nil es
  | cons impl pre ih =>
    obtain ⟨helem, hpre⟩ := List.forall_mem_cons.mp hpre
    have hcons : ∀ op : PhysicalOperator U, impl.compile = some op →
        impl.Means es (events (op.pass (es.map .event)).2) →
        Denotes (impl :: pre) es ((compileTransforms (impl :: pre)).survivors es) := by
      intro op hcompile hmeans
      have hops : compileTransforms (impl :: pre) = op :: compileTransforms pre :=
        List.filterMap_cons_some hcompile
      have hsurvivors : (compileTransforms (impl :: pre)).survivors es =
          (compileTransforms pre).survivors (events (op.pass (es.map .event)).2) := by
        rw [hops, ← Chain.events_pass]
        rfl
      rw [hsurvivors]
      exact .cons hmeans (ih hpre _)
    cases impl with
    | map op =>
      refine hcons (.map ⟨op.func, op.captured⟩) rfl ?_
      rw [events_pass_map, events_map_event]
      exact .map op es
    | filter op =>
      refine hcons (.filter ⟨op.func, op.captured⟩) rfl ?_
      rw [events_pass_filter, events_map_event]
      exact .filter op es
    | _ => cases helem

/-- What reaches the first window is in time. -/
theorem OnTime.inTime_pass (hpre : ∀ impl ∈ pre, impl.isElementwise = true)
    {post : List (LogicalImpl U)} {op : WindowLogicalOperator U} {xs : List StreamElement}
    (h : OnTime (pre ++ .window op :: post) xs) :
    InTime ((compileTransforms pre).pass xs).2 := by
  rcases h with hnone | ⟨hin, hkeeps⟩
  · exact inTime_of_watermarks_nil ((Chain.watermarks_pass _ xs).trans hnone)
  · refine Chain.inTime_pass (compileTransforms_keepsTime hpre fun impl himpl => hkeeps impl ?_) hin
    rw [List.takeWhile_append_of_pos fun impl himpl => ?_]
    · exact List.mem_append_left _ himpl
    · have helem := hpre impl himpl
      cases impl with
      | window op => cases helem
      | _ => rfl

end

/-! ## Bounds -/

/-- A bound on the timestamps of the elements. -/
def Below (bound : Nat) (xs : List StreamElement) : Prop := ∀ x ∈ xs, x.timestamp.toNat ≤ bound

theorem below_iff {bound : Nat} {xs : List StreamElement} : Below bound xs ↔
    (∀ e ∈ events xs, time e ≤ bound) ∧ ∀ wm ∈ watermarks xs, wm.timestamp.toNat ≤ bound := by
  constructor
  · exact fun h => ⟨fun e he => h _ (mem_events.mp he), fun wm hwm => h _ (mem_watermarks.mp hwm)⟩
  · rintro ⟨he, hwm⟩ x hx
    cases x with
    | event e => exact he e (mem_events.mpr hx)
    | watermark wm => exact hwm wm (mem_watermarks.mpr hx)

theorem mapAll_below {bound : Nat} {func : U → Event Record → Event Record × U}
    (h : ∀ u e, time e ≤ bound → time (func u e).1 ≤ bound) (u : U) {es : List (Event Record)}
    (hes : ∀ e ∈ es, time e ≤ bound) : ∀ e ∈ mapAll func u es, time e ≤ bound := by
  induction es generalizing u with
  | nil => exact List.forall_mem_nil _
  | cons e es ih =>
    obtain ⟨he, hes⟩ := List.forall_mem_cons.mp hes
    exact List.forall_mem_cons.mpr ⟨h u e he, ih _ hes⟩

theorem filterAll_below {bound : Nat} {func : U → Event Record → (Bool × Event Record) × U}
    (h : ∀ u e, time e ≤ bound → time (func u e).1.2 ≤ bound) (u : U) {es : List (Event Record)}
    (hes : ∀ e ∈ es, time e ≤ bound) : ∀ e ∈ filterAll func u es, time e ≤ bound := by
  induction es generalizing u with
  | nil => exact List.forall_mem_nil _
  | cons e es ih =>
    obtain ⟨he, hes⟩ := List.forall_mem_cons.mp hes
    unfold filterAll
    split
    · exact List.forall_mem_cons.mpr ⟨h u e he, ih _ hes⟩
    · exact ih _ hes

/-- What is read from a channel is on time, and below the bound of what has been written. -/
theorem onTime_map_event (transforms : List (LogicalImpl U)) (es : List (Event Record)) :
    OnTime transforms (es.map .event) := Or.inl (watermarks_map_event es)

theorem below_map_event {bound : Nat} {es : List (Event Record)} (h : ∀ e ∈ es, time e ≤ bound) :
    Below bound (es.map .event) := by
  rw [below_iff, events_map_event, watermarks_map_event]
  exact ⟨h, List.forall_mem_nil _⟩

/-! ## Windows -/

/-- The vectors of a window are made of the events, and none is empty. -/
theorem WindowSpec.Cuts.mem {spec : WindowSpec} {es : List (Event Record)}
    {vs : List (List (Event Record))} (h : spec.Cuts es vs) {bound : Nat} (hfits : spec.Fits bound)
    {v : List (Event Record)} (hv : v ∈ vs) :
    v ≠ [] ∧ ∀ e ∈ v, e ∈ es := by
  cases h with
  | count htype =>
    have hstep : 0 < CountWindowPhysicalOperator.stepOf spec :=
      Nat.lt_min.mpr ⟨hfits.advance, hfits.size htype⟩
    rcases List.mem_append.mp hv with hv | hv
    · obtain ⟨k, hk, rfl⟩ := List.mem_map.mp hv
      have hfull := (Slices.lt_count_iff hstep).mp (List.mem_range.mp hk)
      refine ⟨fun hnil => ?_, fun e he => List.mem_of_mem_drop (List.mem_of_mem_take he)⟩
      have hlen := congrArg List.length hnil
      rw [Slices.slice, List.length_take, List.length_drop, List.length_nil] at hlen
      have := hfits.size htype
      omega
    · by_cases hrest :
        Slices.rest spec.size.toNat (CountWindowPhysicalOperator.stepOf spec) es = []
      · simp [hrest] at hv
      · rw [if_neg hrest, List.mem_singleton] at hv
        subst hv
        exact ⟨hrest, fun e he => List.mem_of_mem_drop he⟩
  | time _ hbatch _ =>
    obtain ⟨c, hc, rfl⟩ := List.mem_map.mp hv
    obtain ⟨-, hperm, hne⟩ := hbatch.sound c hc
    exact ⟨hne, fun e he => (mem_content.mp (hperm.mem_iff.mp he)).1⟩

theorem applyAll_forall {P : Event Record → Prop}
    {func : U → List (Event Record) → Event Record × U} {vs : List (List (Event Record))}
    (h : ∀ v ∈ vs, ∀ u, P (func u v).1) (u : U) :
    ∀ e ∈ (CountWindowPhysicalOperator.applyAll func u vs).1, P e := by
  induction vs generalizing u with
  | nil => exact List.forall_mem_nil _
  | cons v vs ih =>
    obtain ⟨hv, hvs⟩ := List.forall_mem_cons.mp h
    exact List.forall_mem_cons.mpr ⟨hv u, ih hvs _⟩

theorem LogicalImpl.Means.bounded {impl : LogicalImpl U} {bound : Nat} (hwithin : impl.Within bound)
    {es es' : List (Event Record)} (h : impl.Means es es') (hes : ∀ e ∈ es, time e ≤ bound) :
    ∀ e ∈ es', time e ≤ bound := by
  cases h with
  | map op => exact mapAll_below hwithin op.captured hes
  | filter op => exact filterAll_below hwithin op.captured hes
  | @window op _ vs hcuts =>
    refine applyAll_forall (fun v hv u => ?_) op.captured
    obtain ⟨hne, hmem⟩ := hcuts.mem hwithin.1 hv
    exact hwithin.2 u v hne fun e he => hes e (hmem e he)

/-- The bound holds of all that the operators make. -/
theorem Denotes.bounded {transforms : List (LogicalImpl U)} {bound : Nat}
    (hwithin : ∀ impl ∈ transforms, impl.Within bound) {es es' : List (Event Record)}
    (h : Denotes transforms es es') (hes : ∀ e ∈ es, time e ≤ bound) :
    ∀ e ∈ es', time e ≤ bound := by
  induction h with
  | nil es => exact hes
  | cons hmeans _ ih =>
    obtain ⟨himpl, hrest⟩ := List.forall_mem_cons.mp hwithin
    exact ih hrest (hmeans.bounded himpl hes)

theorem Denotes.append {transforms transforms' : List (LogicalImpl U)}
    {es es' es'' : List (Event Record)} (h : Denotes transforms es es')
    (h' : Denotes transforms' es' es'') : Denotes (transforms ++ transforms') es es'' := by
  induction h with
  | nil es => exact h'
  | cons hmeans _ ih => exact .cons hmeans (ih h')

/-! ## Windows that write to a channel -/

/-- The calls of a window that writes these events to its channel and closes it. -/
structure Writes (k : ChannelId) (q : List (Event Record)) (outs : List Output) : Prop where
  leave : ∀ o ∈ outs, o.next? = none
  sinks : sinks outs = []
  perform : ∀ chs : Channels, chs k = {} →
    outs.foldl perform chs = Function.update chs k ⟨q, true⟩

theorem PhysicalOperator.stage_countWindow (fuel : Nat) (op : CountWindowPhysicalOperator U)
    (xs : List StreamElement) : (countWindow op).stage fuel xs = some (op.runToClose xs) := by
  have hfeed : (countWindow op).feed fuel xs =
      some (countWindow (op.executeAll xs).1, (op.executeAll xs).2) := by
    induction xs generalizing op with
    | nil => rfl
    | cons x xs ih =>
      show (feed fuel (countWindow (op.execute x).1) xs).bind _ = _
      rw [ih]
      rfl
  unfold stage
  rw [hfeed]
  rfl

/-- The calls of a count window that writes to a channel. -/
theorem runToClose_countWindow {spec : WindowSpec}
    (func : U → List (Event Record) → Event Record × U) (captured : U) (k : ChannelId)
    (hstep : 0 < CountWindowPhysicalOperator.stepOf spec) (xs : List StreamElement) :
    (CountWindowPhysicalOperator.create spec func captured (some k)).runToClose xs =
      ((CountWindowPhysicalOperator.applyAll func captured
        (countVectors spec (events xs))).1.map (.write k)) ++ [.closeChannel k] := by
  obtain ⟨hop, houts⟩ :=
    CountWindowPhysicalOperator.create_executeAll spec func captured (some k) hstep xs
  have hemit : ∀ es : List (Event Record), es.flatMap (emit (some k)) = es.map (.write k) := by
    intro es
    induction es with
    | nil => rfl
    | cons e es ih => exact congrArg (Output.write k e :: ·) ih
  have hclose := @CountWindowPhysicalOperator.close_some U _ k
    (show ((CountWindowPhysicalOperator.create spec func captured (some k)).executeAll
      xs).1.outputChannel = some k by rw [hop])
  show ((CountWindowPhysicalOperator.create spec func captured (some k)).executeAll xs).2 ++ _ = _
  rw [hclose, houts, hemit, hop]
  unfold countVectors
  by_cases hrest :
    Slices.rest spec.size.toNat (CountWindowPhysicalOperator.stepOf spec) (events xs) = []
  · simp [hrest]
  · simp [hrest, TimeWindowPhysicalOperator.applyAll_append, CountWindowPhysicalOperator.applyAll]

theorem writes_map (k : ChannelId) (q : List (Event Record)) :
    Writes k q (q.map (.write k) ++ [.closeChannel k]) := by
  refine ⟨fun o ho => ?_, ?_, fun chs hfresh => ?_⟩
  · rcases List.mem_append.mp ho with ho | ho
    · obtain ⟨e, -, rfl⟩ := List.mem_map.mp ho
      rfl
    · obtain rfl := List.mem_singleton.mp ho
      rfl
  · rw [sinks_append]
    induction q with
    | nil => rfl
    | cons e q ih => exact ih
  · have hwrites : ∀ (q : List (Event Record)) (p : List (Event Record)) (chs : Channels),
        chs k = ⟨p, false⟩ → (q.map (Output.write k)).foldl perform chs =
          Function.update chs k ⟨p ++ q, false⟩ := by
      intro q
      induction q with
      | nil =>
        intro p chs hp
        rw [List.append_nil, ← hp, Function.update_eq_self]
        rfl
      | cons e q ih =>
        intro p chs hp
        rw [List.map_cons, List.foldl_cons, ih (p ++ [e])]
        · simp [perform]
        · simp [perform, InputChannel.write, hp]
    rw [List.foldl_append, hwrites q [] chs hfresh]
    simp [perform, InputChannel.close]

theorem writes_outputs {op : TimeWindowPhysicalOperator U} {k : ChannelId}
    (h : op.outputChannel = some k) (fs : List Firing) :
    Writes k (fs.map Firing.result) (op.outputs fs ++ [.closeChannel k]) := by
  have hmem : ∀ o ∈ op.outputs fs, (∃ f, o = .fire f) ∨ ∃ e, o = .write k e := by
    intro o ho
    obtain ⟨f, -, ho⟩ := List.mem_flatMap.mp ho
    rw [h] at ho
    rcases List.mem_cons.mp ho with rfl | ho
    · exact Or.inl ⟨f, rfl⟩
    · obtain rfl := List.mem_singleton.mp ho
      exact Or.inr ⟨_, rfl⟩
  refine ⟨fun o ho => ?_, ?_, fun chs hfresh => ?_⟩
  · rcases List.mem_append.mp ho with ho | ho
    · obtain ⟨f, rfl⟩ | ⟨e, rfl⟩ := hmem o ho
      · rfl
      · rfl
    · obtain rfl := List.mem_singleton.mp ho
      rfl
  · refine List.filterMap_eq_nil_iff.mpr fun o ho => ?_
    rcases List.mem_append.mp ho with ho | ho
    · obtain ⟨f, rfl⟩ | ⟨e, rfl⟩ := hmem o ho
      · rfl
      · rfl
    · obtain rfl := List.mem_singleton.mp ho
      rfl
  · rw [List.foldl_append, TimeWindowPhysicalOperator.foldl_perform_outputs h fs chs [] false hfresh]
    simp [perform, InputChannel.close]

/-- A window that writes to a channel: it ends, and writes the results of its function on the
vectors that the window makes of the events. -/
theorem WindowLogicalOperator.stage_cuts {op : WindowLogicalOperator U} {bound : Nat}
    (hop : op.spec.Fits bound) {xs : List StreamElement} (hin : InTime xs)
    (hbelow : Below bound xs) (k : ChannelId) : ∃ n outs vs, op.spec.Cuts (events xs) vs ∧
      Writes k (CountWindowPhysicalOperator.applyAll op.func op.captured vs).1 outs ∧
      ∀ fuel, n ≤ fuel → (op.compile.setOutputChannel k).stage fuel xs = some outs := by
  obtain ⟨hadv, hsize, hwrap⟩ := hop
  unfold WindowLogicalOperator.compile
  cases htype : op.spec.type with
  | count =>
    have hstep : 0 < CountWindowPhysicalOperator.stepOf op.spec :=
      Nat.lt_min.mpr ⟨hadv, hsize htype⟩
    refine ⟨0, _, _, .count htype, writes_map k _, fun fuel _ => ?_⟩
    rw [← runToClose_countWindow op.func op.captured k hstep xs]
    exact PhysicalOperator.stage_countWindow fuel _ xs
  | time =>
    have hb : TimeWindowPhysicalOperator.Bounded op.spec xs := by
      intro x hx
      have := hbelow x hx
      have := hwrap htype
      omega
    have hreach : reach false xs ≤ bound := reach_le (below_iff.mp hbelow).2
    have hnext : nextEnd op.spec.advance.toNat (reach false xs) ≤
        reach false xs + op.spec.advance.toNat := by
      have := Nat.div_mul_le_self (reach false xs) op.spec.advance.toNat
      rw [nextEnd, Nat.add_mul, Nat.one_mul]
      omega
    have hnw := @TimeWindowPhysicalOperator.runNoWrap_of_bound U op.spec op.func op.captured
      (some k) xs hadv hb (by
        have := hwrap htype
        omega)
    obtain ⟨n, tr, hrun, hlen, hfires⟩ := TimeWindowPhysicalOperator.runToClose_spec hadv
      (TimeWindowPhysicalOperator.create_tracks op.spec op.func op.captured (some k)) hnw
    obtain ⟨hbatch, hsorted⟩ := hfires.batch hlen hin
    have hresults := TimeWindowPhysicalOperator.runToClose_applies (hrun n (Nat.le_refl n))
    have hwrites := @writes_outputs U (.create op.spec op.func op.captured (some k)) k rfl tr.flatten
    rw [hresults] at hwrites
    have hcuts : op.spec.Cuts (events xs) (tr.flatten.map Firing.events) := by
      have hsnd : tr.flatten.map Firing.events = (tr.flatten.map Firing.call).map Prod.snd := by
        rw [List.map_map]
        rfl
      rw [hsnd]
      refine .time htype hbatch fun c hc => ?_
      obtain ⟨f, hf, rfl⟩ := List.mem_map.mp hc
      exact hsorted f hf
    refine ⟨n, _, _, hcuts, hwrites, fun fuel hfuel => ?_⟩
    refine (PhysicalOperator.stage_timeWindow fuel
      (.create op.spec op.func op.captured (some k)) xs).trans ?_
    rw [hrun fuel hfuel]
    rfl

theorem WindowLogicalOperator.compile_shape (op : WindowLogicalOperator U) (k : ChannelId) :
    (op.compile.setOutputChannel k).shape = .window (some k) := by
  unfold WindowLogicalOperator.compile
  cases op.spec.type <;> rfl

end Xtream
