import Xtream.Engine.ProgramMeaning

/-!
# The order of arrival

With enough lateness the order in which the events arrive does not matter: behind maps and filters
that keep no state, a time window makes the same vectors of every arrangement of the events, and from
there on the runs are the same.

* `WindowSpec.Cuts.unique`: the vectors of a time window, when the timestamps are distinct;
* `order_irrelevant`: two programs that differ in their sources.
-/

namespace Xtream

open KahnNetwork SlidingWindow

variable {U : Type}

/-- A map or a filter whose function leaves what it has captured alone. -/
def LogicalImpl.Stateless : LogicalImpl U → Prop
  | .map op => ∀ u e, (op.func u e).2 = u
  | .filter op => ∀ u e, (op.func u e).2 = u
  | _ => False

/-! ## Maps and filters without state -/

theorem mapAll_stateless {func : U → Event Record → Event Record × U}
    (h : ∀ u e, (func u e).2 = u) (u : U) (es : List (Event Record)) :
    mapAll func u es = es.map fun e => (func u e).1 := by
  induction es with
  | nil => rfl
  | cons e es ih => rw [mapAll, h, ih, List.map_cons]

theorem filterAll_stateless {func : U → Event Record → (Bool × Event Record) × U}
    (h : ∀ u e, (func u e).2 = u) (u : U) (es : List (Event Record)) :
    filterAll func u es =
      es.filterMap fun e => if (func u e).1.1 then some (func u e).1.2 else none := by
  induction es with
  | nil => rfl
  | cons e es ih =>
    rw [filterAll, h, ih, List.filterMap_cons]
    by_cases hp : (func u e).1.1 = true
    · simp [hp]
    · simp [hp]

theorem LogicalImpl.Stateless.isElementwise {impl : LogicalImpl U} (h : impl.Stateless) :
    impl.isElementwise = true := by
  cases impl with
  | map op => rfl
  | filter op => rfl
  | _ => cases h

theorem LogicalImpl.Means.perm {impl : LogicalImpl U} (himpl : impl.Stateless)
    {es es' fs fs' : List (Event Record)} (hperm : es.Perm es') (h : impl.Means es fs)
    (h' : impl.Means es' fs') : fs.Perm fs' := by
  cases h with
  | map op =>
    cases h'
    rw [mapAll_stateless himpl, mapAll_stateless himpl]
    exact hperm.map _
  | filter op =>
    cases h'
    rw [filterAll_stateless himpl, filterAll_stateless himpl]
    exact hperm.filterMap _
  | window hcuts => cases himpl

/-- The timestamps that come out are some of those that go in, in the same order. -/
theorem LogicalImpl.Means.timestamps {impl : LogicalImpl U} (himpl : impl.Stateless)
    (hkeeps : impl.KeepsTime) {es fs : List (Event Record)} (h : impl.Means es fs) :
    (fs.map Event.timestamp).Sublist (es.map Event.timestamp) := by
  cases h with
  | map op =>
    rw [mapAll_stateless himpl, List.map_map]
    exact (List.map_congr_left fun e _ => hkeeps op.captured e).symm ▸ List.Sublist.refl _
  | filter op =>
    rw [filterAll_stateless himpl]
    induction es with
    | nil => exact List.Sublist.slnil
    | cons e es ih =>
      rw [List.filterMap_cons, List.map_cons]
      by_cases hp : (op.func op.captured e).1.1 = true
      · rw [if_pos hp, List.map_cons, hkeeps op.captured e]
        exact ih.cons_cons _
      · rw [if_neg hp]
        exact ih.cons _
  | window hcuts => cases himpl

/-- Arrangements of the events come out as arrangements. -/
theorem Denotes.perm {pre : List (LogicalImpl U)} (hpre : ∀ impl ∈ pre, impl.Stateless)
    {es es' fs fs' : List (Event Record)} (hperm : es.Perm es') (h : Denotes pre es fs)
    (h' : Denotes pre es' fs') : fs.Perm fs' := by
  induction h generalizing es' with
  | nil es =>
    cases h'
    exact hperm
  | cons hmeans _ ih =>
    obtain ⟨himpl, hpre⟩ := List.forall_mem_cons.mp hpre
    cases h' with
    | cons hmeans' hrest' => exact ih hpre (hmeans.perm himpl hperm hmeans') hrest'

theorem Denotes.timestamps {pre : List (LogicalImpl U)} (hpre : ∀ impl ∈ pre, impl.Stateless)
    (hkeeps : ∀ impl ∈ pre, impl.KeepsTime) {es fs : List (Event Record)} (h : Denotes pre es fs) :
    (fs.map Event.timestamp).Sublist (es.map Event.timestamp) := by
  induction h with
  | nil es => exact List.Sublist.refl _
  | cons hmeans _ ih =>
    obtain ⟨himpl, hpre⟩ := List.forall_mem_cons.mp hpre
    obtain ⟨hkeep, hkeeps⟩ := List.forall_mem_cons.mp hkeeps
    exact (ih hpre hkeeps).trans (hmeans.timestamps himpl hkeep)

/-! ## The vectors of a time window -/

/-- Events with distinct timestamps have one order only. -/
theorem SortedByTime.unique {vs ws es : List (Event Record)}
    (hdistinct : (es.map Event.timestamp).Nodup) (hmem : ∀ e ∈ vs, e ∈ es) (hvs : SortedByTime vs)
    (hws : SortedByTime ws) (hperm : vs.Perm ws) : vs = ws := by
  refine hperm.eq_of_pairwise (fun a b ha hb hab hba => ?_) hvs hws
  exact List.inj_on_of_nodup_map hdistinct (hmem a ha) (hmem b (hperm.mem_iff.mpr hb))
    (UInt64.le_antisymm hab hba)

/-- A time window makes the same vectors of every arrangement. -/
theorem WindowSpec.Cuts.unique {spec : WindowSpec} (htime : spec.type = .time)
    {es es' : List (Event Record)} (hperm : es.Perm es')
    (hdistinct : (es.map Event.timestamp).Nodup) {vs vs' : List (List (Event Record))}
    (h : spec.Cuts es vs) (h' : spec.Cuts es' vs') : vs = vs' := by
  cases h with
  | count htype => cases htime.symm.trans htype
  | time _ hbatch hsorted =>
    cases h' with
    | count htype => cases htime.symm.trans htype
    | time _ hbatch' hsorted' =>
      refine congrArg (List.map Prod.snd) (hbatch.unique hperm hbatch' fun c hc c' hc' hsame => ?_)
      exact SortedByTime.unique hdistinct (fun e he =>
        (mem_content.mp ((hbatch.sound c hc).2.1.mem_iff.mp he)).1) (hsorted c hc)
        (hsorted' c' hc') hsame

/-! ## Programs -/

/-- The pipelines of a program up to its first window. -/
theorem runInOrder_source {pre post : List (LogicalImpl U)} {op : WindowLogicalOperator U}
    {bound : Nat} (hpre : ∀ impl ∈ pre, impl.Stateless) (hkeeps : ∀ impl ∈ pre, impl.KeepsTime)
    (hop : op.spec.Fits bound) (ops : Chain U) {source : SourceLogicalOperator U}
    {es : List (Event Record)}
    (hes : SourcePhysicalOperator.Yields source.func source.captured es)
    (hdisorder : BoundedDisorder source.allowedLateness es) (hbound : maxTime es ≤ bound) :
    ∃ m fs vs, Denotes pre es fs ∧ op.spec.Cuts fs vs ∧ ∀ fuel, m ≤ fuel →
      (ExecutionGraph.runInOrder fuel (ExecutionGraph.pipelines 0 [source.compile]
        (compileTransforms (pre ++ .window op :: post) ++ ops)) (fun _ => {})).map sinks =
      (ExecutionGraph.runInOrder fuel (ExecutionGraph.pipelines 1 [.channelSource ⟨0, false⟩]
        (compileTransforms post ++ ops)) (Function.update (fun _ => {}) 0
          ⟨(CountWindowPhysicalOperator.applyAll op.func op.captured vs).1, true⟩)).map sinks := by
  have helem : ∀ impl ∈ pre, impl.isElementwise = true := fun impl h => (hpre impl h).isElementwise
  obtain ⟨hfeeds, hevents, hin, hbelow⟩ := source.feeds hes hdisorder hbound
  have hkept : ∀ o ∈ compileTransforms pre, o.KeepsTime := compileTransforms_keepsTime helem hkeeps
  obtain ⟨m, vs, hcuts, hrun⟩ := @ExecutionGraph.runInOrder_window U pre post op bound helem hop ops
    _ 0 _ _ _ _ hfeeds (fun _ h => by cases h) rfl (Chain.inTime_pass hkept hin) fun y hy => by
      obtain ⟨x, hx, hts⟩ := Chain.mem_pass hkept hy
      exact hts ▸ hbelow x hx
  rw [hevents] at hcuts
  exact ⟨m, _, vs, denotes_survivors helem es, hcuts, hrun⟩

/-- **The order of arrival is irrelevant.** Two programs with the same operators, whose sources yield
the same events in different orders, each with enough lateness for its order, and with distinct
timestamps: when one has returned, the other can return, and its sink receives the same. The first
window is a time window, the maps and filters in front of it keep no state and leave the timestamps
alone; behind it the operators are arbitrary. -/
theorem order_irrelevant {g g' : DataflowGraph U} {source source' : SourceLogicalOperator U}
    {pre post : List (LogicalImpl U)} {op : WindowLogicalOperator U} {sink : SinkLogicalOperator U}
    (hg : g.IsLinear source (pre ++ .window op :: post) sink)
    (hg' : g'.IsLinear source' (pre ++ .window op :: post) sink) {keys keys' : List OperatorId}
    (hkeys : keys.Perm g.inDegreeKeys) (hkeys' : keys'.Perm g'.inDegreeKeys)
    {es es' : List (Event Record)}
    (hes : SourcePhysicalOperator.Yields source.func source.captured es)
    (hes' : SourcePhysicalOperator.Yields source'.func source'.captured es')
    (hperm : es.Perm es') (hdistinct : (es.map Event.timestamp).Nodup)
    (hdisorder : BoundedDisorder source.allowedLateness es)
    (hdisorder' : BoundedDisorder source'.allowedLateness es')
    (hpre : ∀ impl ∈ pre, impl.Stateless) (hkeeps : ∀ impl ∈ pre, impl.KeepsTime)
    (htime : op.spec.type = .time) (hop : op.spec.Fits (maxTime es)) :
    ∃ k pipelines pipelines', (∀ fuel, k ≤ fuel → ExecutionGraph.build fuel keys g = some pipelines ∧
        ExecutionGraph.build fuel keys' g' = some pipelines') ∧
      ∀ t s, Steps Program.Step (Program.start pipelines.length pipelines) t s →
        s.engine.execute = .idle →
        (∃ t' s', Steps Program.Step (Program.start pipelines'.length pipelines') t' s' ∧
          s'.engine.execute = .idle) ∧
        ∀ t' s', Steps Program.Step (Program.start pipelines'.length pipelines') t' s' →
          s'.engine.execute = .idle →
            sinks (calls (Program.jobActs t')) = sinks (calls (Program.jobActs t)) := by
  have hbound' : maxTime es' ≤ maxTime es := Nat.le_of_lt_succ (maxTime_lt (Nat.succ_pos _)
    fun e he => Nat.lt_succ_of_le (time_le_maxTime (hperm.mem_iff.mpr he)))
  obtain ⟨m, fs, vs, hfs, hcuts, hrun⟩ := @runInOrder_source U pre post op _ hpre hkeeps hop
    [sink.compile] source es hes hdisorder (Nat.le_refl _)
  obtain ⟨m', fs', vs', hfs', hcuts', hrun'⟩ := @runInOrder_source U pre post op _ hpre hkeeps hop
    [sink.compile] source' es' hes' hdisorder' hbound'
  -- the first window makes the same vectors of both
  obtain rfl : vs = vs' := hcuts.unique htime (hfs.perm hpre hperm hfs')
    ((hfs.timestamps hpre hkeeps).nodup hdistinct) hcuts'
  refine ⟨(pre ++ .window op :: post).length + 2, _, _, fun fuel hfuel =>
    ⟨hg.build_eq hkeys hfuel, hg'.build_eq hkeys' hfuel⟩, fun t s ht hidle => ?_⟩
  exact Program.agree hg.pieces hg'.pieces (fun fuel hfuel =>
    (hrun fuel (le_of_max_le_left hfuel)).trans (hrun' fuel (le_of_max_le_right hfuel)).symm) ht hidle

/-- A source of these events, a filter that drops the event 3, a time window of 2 that moves by 1, and
a count window of 2. -/
def arrivals (es : List (Event Record)) (lateness : UInt64) : DataflowGraph (List (Event Record)) where
  operators :=
    [⟨⟨0⟩, "source", 1, .source ⟨fun u => (u.head?, u.tail), es, lateness, 1⟩⟩,
      ⟨⟨1⟩, "filter", 1, .filter ⟨fun u e => ((e.timestamp != 3, e), u), []⟩⟩,
      ⟨⟨2⟩, "time", 1, .window ⟨timeWindow 2 1, fun u es => (es.headD (eventAt 0), u), []⟩⟩,
      ⟨⟨3⟩, "count", 1, .window ⟨countTumblingWindow 2, fun u es => (es.headD (eventAt 0), u), []⟩⟩,
      ⟨⟨4⟩, "sink", 1, .sink ⟨fun u _ => u, []⟩⟩]
  edges := [⟨⟨0⟩, ⟨0⟩, ⟨1⟩, .forward⟩, ⟨⟨1⟩, ⟨1⟩, ⟨2⟩, .forward⟩, ⟨⟨2⟩, ⟨2⟩, ⟨3⟩, .forward⟩,
    ⟨⟨3⟩, ⟨3⟩, ⟨4⟩, .forward⟩]

theorem arrivals_isLinear (es : List (Event Record)) (lateness : UInt64) :
    (arrivals es lateness).IsLinear ⟨fun u => (u.head?, u.tail), es, lateness, 1⟩
      ([.filter ⟨fun u e => ((e.timestamp != 3, e), u), []⟩] ++
        .window ⟨timeWindow 2 1, fun u es => (es.headD (eventAt 0), u), []⟩ ::
        [.window ⟨countTumblingWindow 2, fun u es => (es.headD (eventAt 0), u), []⟩])
      ⟨fun u _ => u, []⟩ := by
  refine ⟨⟨(arrivals es lateness).operators, ⟨List.Perm.refl _, ?_, ?_⟩, rfl⟩, ?_⟩
  · show ([⟨0⟩, ⟨1⟩, ⟨2⟩, ⟨3⟩, ⟨4⟩] : List OperatorId).Nodup
    decide
  · exact List.Perm.refl _
  · simp [LogicalImpl.isTransform]

theorem arrivals_yields (es : List (Event Record)) :
    SourcePhysicalOperator.Yields (fun u : List (Event Record) => (u.head?, u.tail)) es es := by
  induction es with
  | nil => rfl
  | cons e es ih => exact ⟨rfl, ih⟩

/-- The events 1, 2, 4 in order, and with a lateness of 3 in the order 4, 2, 1. -/
theorem order_irrelevant_reversed :
    let g := arrivals [eventAt 1, eventAt 2, eventAt 4] 0
    let g' := arrivals [eventAt 4, eventAt 2, eventAt 1] 3
    ∃ k pipelines pipelines', (∀ fuel, k ≤ fuel →
        ExecutionGraph.build fuel g.inDegreeKeys g = some pipelines ∧
        ExecutionGraph.build fuel g'.inDegreeKeys g' = some pipelines') ∧
      ∀ t s, Steps Program.Step (Program.start pipelines.length pipelines) t s →
        s.engine.execute = .idle →
        (∃ t' s', Steps Program.Step (Program.start pipelines'.length pipelines') t' s' ∧
          s'.engine.execute = .idle) ∧
        ∀ t' s', Steps Program.Step (Program.start pipelines'.length pipelines') t' s' →
          s'.engine.execute = .idle →
            sinks (calls (Program.jobActs t')) = sinks (calls (Program.jobActs t)) :=
  order_irrelevant (arrivals_isLinear _ 0) (arrivals_isLinear _ 3) (List.Perm.refl _)
    (List.Perm.refl _) (arrivals_yields [eventAt 1, eventAt 2, eventAt 4])
    (arrivals_yields [eventAt 4, eventAt 2, eventAt 1]) (by decide) (by decide)
    (boundedDisorder_of_pairwise (by decide)) (boundedDisorder_of_pairwise (by decide))
    (List.forall_mem_singleton.mpr fun _ _ => rfl) (List.forall_mem_singleton.mpr fun _ _ => rfl)
    rfl ⟨by decide, fun h => (by cases h), fun _ => by decide⟩

end Xtream
