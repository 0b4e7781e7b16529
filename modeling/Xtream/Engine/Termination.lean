import Xtream.Engine.Watermarks
import Xtream.Graph.Validation
import Xtream.Window.Ending

/-!
# When a pipeline returns

Maps, filters, count windows and sinks return from every call. A time window has two loops, so a
chain returns iff they end on what reaches each of its time windows.

* `run_mono`: a pipeline that returns does so with more fuel as well;
* `stage_ends_iff`: an operator returns iff the counter of a time window gets past its events;
* `runChain_ends_iff`: a chain returns iff this is so at every time window in it;
* `pipeline_ends_iff`: so does the pipeline of a linear graph.
-/

namespace Xtream

/-! ## More fuel -/

namespace PhysicalOperator

variable {U : Type} {n m : Nat}

theorem feed_mono (hnm : n ≤ m) {op : PhysicalOperator U} {xs : List StreamElement}
    {r : PhysicalOperator U × List Output} (h : op.feed n xs = some r) :
    op.feed m xs = some r := by
  induction xs generalizing op r with
  | nil => exact h
  | cons x xs ih =>
    obtain ⟨s, hs, h⟩ := Option.bind_eq_some_iff.mp h
    obtain ⟨t, ht, h⟩ := Option.bind_eq_some_iff.mp h
    rw [feed, execute_mono hnm hs, Option.bind_eq_bind, Option.bind_some, ih ht]
    exact h

theorem stage_mono (hnm : n ≤ m) {op : PhysicalOperator U} {xs : List StreamElement}
    {outs : List Output} (h : op.stage n xs = some outs) : op.stage m xs = some outs := by
  obtain ⟨r, hr, h⟩ := Option.bind_eq_some_iff.mp h
  obtain ⟨s, hs, h⟩ := Option.bind_eq_some_iff.mp h
  rw [stage, feed_mono hnm hr, Option.bind_eq_bind, Option.bind_some, close_mono hnm hs]
  exact h

/-- The calls of an operator do not depend on the fuel. -/
theorem stage_unique {op : PhysicalOperator U} {xs : List StreamElement} {outs outs' : List Output}
    (h : op.stage n xs = some outs) (h' : op.stage m xs = some outs') : outs = outs' :=
  While.unique_of_mono (f := fun n => op.stage n xs) (fun hnm h => stage_mono hnm h) h h'

end PhysicalOperator

namespace Chain

variable {U : Type} {n m : Nat}

theorem runChain_mono (hnm : n ≤ m) {ops : Chain U} {xs : List StreamElement}
    {outs : List Output} (h : runChain n ops xs = some outs) : runChain m ops xs = some outs := by
  obtain ⟨r, hr, h⟩ := Option.bind_eq_some_iff.mp h
  obtain ⟨s, hs, h⟩ := Option.bind_eq_some_iff.mp h
  have hfeed : feed m ops xs = some r := deliver_mono (fun _ _ _ ht => execute_mono hnm ht) hr
  rw [runChain, hfeed, Option.bind_eq_bind, Option.bind_some, closeAll, closeFrom_mono hnm hs]
  exact h

end Chain

namespace Pipeline

variable {U : Type} {n m : Nat}

theorem pull_mono (hnm : n ≤ m) {ops : Chain U} {chs : Channels}
    {r : Chain U × Channels × List Output} (h : pull n ops chs = some r) :
    pull m ops chs = some r := by
  cases ops with
  | nil => cases h
  | cons op rest =>
    rw [pull_cons, Option.bind_eq_some_iff] at h
    obtain ⟨s, hs, h⟩ := h
    obtain ⟨t, ht, rfl⟩ := Option.map_eq_some_iff.mp h
    rw [pull_cons, hs, Option.bind_some, Chain.execute_mono hnm ht]
    rfl

theorem runLoop_mono (hnm : n ≤ m) {k l : Nat} (hkl : k ≤ l) {ops : Chain U} {chs : Channels}
    {r : Chain U × Channels × List Output} (h : runLoop n k ops chs = some r) :
    runLoop m l ops chs = some r := by
  induction k generalizing l ops chs r with
  | zero => cases h
  | succ k ih =>
    obtain ⟨l, rfl⟩ := Nat.exists_eq_add_of_lt hkl
    rw [runLoop_succ, Option.bind_eq_some_iff] at h
    obtain ⟨s, hs, h⟩ := h
    rw [runLoop_succ, pull_mono hnm hs, Option.bind_some]
    by_cases hdone : Chain.isDone s.1 = true
    · rw [if_pos hdone] at h ⊢
      exact h
    · rw [if_neg hdone] at h ⊢
      obtain ⟨t, ht, rfl⟩ := Option.map_eq_some_iff.mp h
      rw [ih (Nat.le_add_right k l) ht]
      rfl

/-- More fuel does not change what a pipeline returns. -/
theorem run_mono (hnm : n ≤ m) {ops : Chain U} {chs : Channels}
    {r : Chain U × Channels × List Output} (h : run n ops chs = some r) :
    run m ops chs = some r := by
  obtain ⟨s, hs, h⟩ := Option.bind_eq_some_iff.mp h
  obtain ⟨t, ht, h⟩ := Option.bind_eq_some_iff.mp h
  rw [run, runLoop_mono hnm hnm hs, Option.bind_eq_bind, Option.bind_some, Chain.closeAll,
    Chain.closeFrom_mono hnm ht]
  exact h

open SourcePhysicalOperator (Yields)

/-- A pipeline with a source returns iff the chain behind it does. -/
theorem run_source_ends_iff {s : SourcePhysicalOperator U} {es : List (Event Record)}
    (hdone : s.done = false) (hes : Yields s.func s.captured es) (rest : Chain U)
    (chs : Channels) : (∃ fuel r, run fuel (.source s :: rest) chs = some r) ↔
      ∃ fuel outs, Chain.runChain fuel rest (elements (s.runToClose (es.length + 1))) =
        some outs := by
  constructor
  · rintro ⟨n, r, hrun⟩
    have hrun' := run_mono (Nat.le_max_left n (es.length + 1)) hrun
    have h := run_source hdone hes (Nat.le_max_right n (es.length + 1)) rest chs
    rw [hrun', Option.map_some, eq_comm, Option.map_eq_some_iff] at h
    obtain ⟨outs, houts, -⟩ := h
    exact ⟨_, outs, houts⟩
  · rintro ⟨n, outs, houts⟩
    have houts' := Chain.runChain_mono (Nat.le_max_left n (es.length + 1)) houts
    have h := run_source hdone hes (Nat.le_max_right n (es.length + 1)) rest chs
    rw [houts', Option.map_some, Option.map_eq_some_iff] at h
    obtain ⟨r, hr, -⟩ := h
    exact ⟨_, r, hr⟩

end Pipeline

/-! ## One operator -/

namespace PhysicalOperator

variable {U : Type}

/-- An operator behind the source of a pipeline, as it is compiled: no source, and a time window is
as constructed. -/
def Fresh : PhysicalOperator U → Prop
  | source _ => False
  | channelSource _ => False
  | timeWindow op => ∃ spec func captured, op = .create spec func captured none
  | _ => True

/-- If the operator is a time window, its counter gets past the events. -/
def Clears (xs : List StreamElement) : PhysicalOperator U → Prop
  | timeWindow op => ∀ e ∈ events xs, op.spec.Clears e
  | _ => True

/-- If the operator is a time window, the watermarks are `advance` below `2^64`. -/
def WatermarksFit (xs : List StreamElement) : PhysicalOperator U → Prop
  | timeWindow op => ∀ wm ∈ watermarks xs, wm.timestamp.toNat + op.spec.advance.toNat < 2 ^ 64
  | _ => True

theorem Fresh.isSource {op : PhysicalOperator U} (h : op.Fresh) : op.isSource = false := by
  cases op with
  | source op => exact h.elim
  | channelSource op => exact h.elim
  | _ => rfl

/-- All operators but time windows return from every call. -/
theorem stage_ends {op : PhysicalOperator U} (h : ∀ op', op ≠ timeWindow op')
    (xs : List StreamElement) : ∃ outs, op.stage 0 xs = some outs := by
  have hfeed : ∃ r, op.feed 0 xs = some r ∧ ∀ op', r.1 ≠ timeWindow op' := by
    induction xs generalizing op with
    | nil => exact ⟨_, rfl, h⟩
    | cons x xs ih =>
      have hexec : ∃ s, op.execute 0 true none x = some s ∧ ∀ op', s.1 ≠ timeWindow op' := by
        cases op with
        | timeWindow op => exact absurd rfl (h op)
        | _ => exact ⟨_, rfl, fun _ h => by cases h⟩
      obtain ⟨s, hs, hs'⟩ := hexec
      obtain ⟨r, hr, hr'⟩ := ih hs'
      refine ⟨(r.1, s.2 ++ r.2), ?_, hr'⟩
      rw [feed, hs, Option.bind_eq_bind, Option.bind_some, hr]
      rfl
  obtain ⟨r, hr, hr'⟩ := hfeed
  have hclose : ∃ s, r.1.close 0 = some s := by
    cases hop : r.1 with
    | timeWindow op => exact absurd hop (hr' op)
    | _ => exact ⟨_, rfl⟩
  obtain ⟨s, hs⟩ := hclose
  refine ⟨r.2 ++ s.2, ?_⟩
  rw [stage, hr, Option.bind_eq_bind, Option.bind_some, hs]
  rfl

/-- An operator returns iff the counter of a time window gets past its events. -/
theorem stage_ends_iff {op : PhysicalOperator U} (h : op.Fresh) {xs : List StreamElement}
    (hfit : op.WatermarksFit xs) : (∃ fuel outs, op.stage fuel xs = some outs) ↔ op.Clears xs := by
  cases op with
  | timeWindow op =>
    obtain ⟨spec, func, captured, rfl⟩ := h
    refine Iff.trans ?_
      (TimeWindowPhysicalOperator.runToClose_ends_iff spec func captured none hfit)
    refine exists_congr fun fuel => ?_
    rw [stage_timeWindow]
    cases TimeWindowPhysicalOperator.runToClose fuel _ xs <;> simp
  | source op => exact h.elim
  | channelSource op => exact h.elim
  | _ => exact iff_of_true ⟨0, stage_ends (fun _ h => by cases h) xs⟩ trivial

/-! ## The watermarks behind an operator -/

theorem Fresh.shape {op : PhysicalOperator U} (h : op.Fresh) : op.shape ≠ .source := by
  cases op with
  | source op => exact h.elim
  | _ => exact fun h => by cases h

/-- An operator behind the source sends on the watermark that it gets, and no other. -/
theorem watermark_of_execute {op : PhysicalOperator U} (h : op.shape ≠ .source) {fuel : Nat}
    {x : StreamElement} {r : PhysicalOperator U × List Output}
    (hr : op.execute fuel true none x = some r) {wm : Watermark}
    (hwm : wm ∈ watermarks (nexts r.2)) : x = .watermark wm := by
  rw [← outputsWithin_eq hr] at hwm
  cases x with
  | event e =>
    rw [watermarks_outputsWithin h fun _ => rfl] at hwm
    cases hwm
  | watermark wm' =>
    by_cases hforwards : op.shape.forwards = true
    · rw [outputsWithin_forwards hforwards] at hwm
      obtain rfl := List.mem_singleton.mp hwm
      rfl
    · rw [watermarks_outputsWithin h fun h' => absurd h' hforwards] at hwm
      cases hwm

/-- The watermarks behind an operator are among those before it. -/
theorem watermarks_stage {op : PhysicalOperator U} (h : op.shape ≠ .source) {fuel : Nat}
    {xs : List StreamElement} {outs : List Output} (houts : op.stage fuel xs = some outs)
    {wm : Watermark} (hwm : wm ∈ watermarks (nexts outs)) : wm ∈ watermarks xs := by
  rw [mem_watermarks]
  induction xs generalizing op outs with
  | nil =>
    obtain ⟨s, hs, houts⟩ := Option.bind_eq_some_iff.mp houts
    cases houts
    rw [List.nil_append, ← closeOutputsWithin_eq hs, watermarks_closeOutputsWithin h] at hwm
    cases hwm
  | cons x xs ih =>
    obtain ⟨r, hr, houts⟩ := Option.bind_eq_some_iff.mp houts
    obtain ⟨s, hs, hr⟩ := Option.bind_eq_some_iff.mp hr
    obtain ⟨t, ht, hr⟩ := Option.bind_eq_some_iff.mp hr
    obtain ⟨c, hc, houts⟩ := Option.bind_eq_some_iff.mp houts
    cases hr
    cases houts
    rw [List.append_assoc, nexts_append, watermarks_append] at hwm
    rcases List.mem_append.mp hwm with hwm | hwm
    · rw [watermark_of_execute h hs hwm]
      exact List.mem_cons_self
    · have hrest : s.1.stage fuel xs = some (t.2 ++ c.2) := by
        rw [stage, ht, Option.bind_eq_bind, Option.bind_some, hc]
        rfl
      refine List.mem_cons_of_mem _ (ih ?_ hrest hwm)
      rw [(execute_shape hs).1]
      exact h

end PhysicalOperator

/-! ## A chain -/

namespace Chain

variable {U : Type}

theorem results_mono {n m : Nat} (hnm : n ≤ m) {ops : Chain U} {xs ys : List StreamElement}
    (h : results n ops xs = some ys) : results m ops xs = some ys := by
  induction ops generalizing xs with
  | nil => exact h
  | cons op rest ih =>
    obtain ⟨outs, houts, h⟩ := Option.bind_eq_some_iff.mp h
    rw [results, PhysicalOperator.stage_mono hnm houts, Option.bind_some, ih h]

/-- The counter of every time window gets past the events that reach it, which are those that come
out of the operators before it. -/
def Clears (ops : Chain U) (xs : List StreamElement) : Prop :=
  ∀ (before : Chain U) (op : TimeWindowPhysicalOperator U) (after : Chain U),
    ops = before ++ .timeWindow op :: after → ∀ fuel ys, results fuel before xs = some ys →
      ∀ e ∈ events ys, op.spec.Clears e

theorem clears_nil (xs : List StreamElement) : Clears ([] : Chain U) xs := by
  intro before op after h
  simp at h

theorem clears_cons {op : PhysicalOperator U} {rest : Chain U} {xs : List StreamElement} :
    Clears (op :: rest) xs ↔ op.Clears xs ∧
      ∀ fuel outs, op.stage fuel xs = some outs → Clears rest (nexts outs) := by
  constructor
  · intro h
    constructor
    · cases op with
      | timeWindow op => exact h [] op rest rfl 0 xs rfl
      | _ => trivial
    · rintro n outs houts before op' after rfl m ys hys
      refine h (op :: before) op' after rfl (max n m) ys ?_
      rw [results, PhysicalOperator.stage_mono (Nat.le_max_left n m) houts, Option.bind_some,
        results_mono (Nat.le_max_right n m) hys]
  · rintro ⟨hop, hrest⟩ before op' after hsplit fuel ys hys
    cases before with
    | nil =>
      cases hsplit
      cases hys
      exact hop
    | cons op'' before =>
      cases hsplit
      obtain ⟨outs, houts, hys⟩ := Option.bind_eq_some_iff.mp hys
      exact hrest fuel outs houts before op' after rfl fuel ys hys

/-- An operator at the end that is no time window does not count. -/
theorem clears_concat {ops : Chain U} {op : PhysicalOperator U}
    (h : ∀ op', op ≠ .timeWindow op') (xs : List StreamElement) :
    Clears (ops ++ [op]) xs ↔ Clears ops xs := by
  induction ops generalizing xs with
  | nil =>
    refine iff_of_true (clears_cons.mpr ⟨?_, fun _ _ _ => clears_nil _⟩) (clears_nil xs)
    cases op with
    | timeWindow op => exact absurd rfl (h op)
    | _ => trivial
  | cons op' ops ih =>
    rw [List.cons_append, clears_cons, clears_cons]
    simp only [ih]

/-- When everything is below `2^62`, only an `advance` of 0 keeps the counter of a time window from
getting past an event that reaches it. -/
theorem clears_iff_of_below {ops : Chain U} {xs : List StreamElement}
    (hspec : ∀ op, .timeWindow op ∈ ops →
      op.spec.size.toNat < 2 ^ 62 ∧ op.spec.advance.toNat < 2 ^ 62)
    (hts : ∀ (before : Chain U) (op : TimeWindowPhysicalOperator U) (after : Chain U),
      ops = before ++ .timeWindow op :: after → ∀ fuel ys, results fuel before xs = some ys →
        ∀ e ∈ events ys, time e < 2 ^ 62) :
    Clears ops xs ↔
      ∀ (before : Chain U) (op : TimeWindowPhysicalOperator U) (after : Chain U),
        ops = before ++ .timeWindow op :: after → op.spec.advance.toNat = 0 →
          ∀ fuel ys, results fuel before xs = some ys → events ys = [] := by
  constructor
  · intro h before op after hsplit hzero fuel ys hys
    rw [List.eq_nil_iff_forall_not_mem]
    intro e he
    have := (h before op after hsplit fuel ys hys e he).advance_pos
    omega
  · intro h before op after hsplit fuel ys hys e he
    obtain ⟨hsize, hadv⟩ := hspec op (by rw [hsplit]; simp)
    have hlt := hts before op after hsplit fuel ys hys e he
    refine WindowSpec.clears_of_lt (Nat.pos_iff_ne_zero.mpr fun hzero => ?_) (by omega)
    rw [h before op after hsplit hzero fuel ys hys] at he
    cases he

/-- A chain returns iff its first operator does and then the chain behind it. -/
theorem runChain_ends_cons {op : PhysicalOperator U} (hop : op.isSource = false) (rest : Chain U)
    (xs : List StreamElement) : (∃ fuel outs, runChain fuel (op :: rest) xs = some outs) ↔
      ∃ fuel outs, op.stage fuel xs = some outs ∧
        ∃ fuel' outs', runChain fuel' rest (nexts outs) = some outs' := by
  have hcons := fun fuel => @runChain_filter U fuel op hop rest xs (fun _ => false)
    fun _ _ _ _ _ => rfl
  constructor
  · rintro ⟨n, outs, hrun⟩
    have h := hcons n
    rw [hrun, Option.map_some, eq_comm, Option.bind_eq_some_iff] at h
    obtain ⟨outs', houts', h⟩ := h
    obtain ⟨r, hr, -⟩ := Option.map_eq_some_iff.mp h
    exact ⟨n, outs', houts', n, r, hr⟩
  · rintro ⟨n, outs, houts, m, outs', hrun⟩
    have h := hcons (max n m)
    rw [PhysicalOperator.stage_mono (Nat.le_max_left n m) houts, Option.bind_some,
      runChain_mono (Nat.le_max_right n m) hrun, Option.map_some, Option.map_eq_some_iff] at h
    obtain ⟨r, hr, -⟩ := h
    exact ⟨_, r, hr⟩

/-- A chain returns iff the counter of every time window gets past what reaches it. -/
theorem runChain_ends_iff {ops : Chain U} (hops : ∀ op ∈ ops, op.Fresh) {xs : List StreamElement}
    (hfit : ∀ op ∈ ops, op.WatermarksFit xs) :
    (∃ fuel outs, runChain fuel ops xs = some outs) ↔ Clears ops xs := by
  induction ops generalizing xs with
  | nil => exact iff_of_true ⟨0, [], runChain_nil 0 xs⟩ (clears_nil xs)
  | cons op rest ih =>
    obtain ⟨hop, hrest⟩ := List.forall_mem_cons.mp hops
    obtain ⟨hfitOp, hfitRest⟩ := List.forall_mem_cons.mp hfit
    have hstage := PhysicalOperator.stage_ends_iff hop hfitOp
    have hih : ∀ fuel outs, op.stage fuel xs = some outs →
        ((∃ fuel outs', runChain fuel rest (nexts outs) = some outs') ↔
          Clears rest (nexts outs)) := by
      intro fuel outs houts
      refine ih hrest fun op' hop' => ?_
      have h := hfitRest op' hop'
      cases op' with
      | timeWindow op' =>
        exact fun wm hwm => h wm (PhysicalOperator.watermarks_stage hop.shape houts hwm)
      | _ => trivial
    rw [runChain_ends_cons hop.isSource, clears_cons, ← hstage]
    constructor
    · rintro ⟨n, outs, houts, hrun⟩
      refine ⟨⟨n, outs, houts⟩, fun m outs' houts' => ?_⟩
      obtain rfl := PhysicalOperator.stage_unique houts houts'
      exact (hih n outs houts).mp hrun
    · rintro ⟨⟨n, outs, houts⟩, hclears⟩
      exact ⟨n, outs, houts, (hih n outs houts).mpr (hclears n outs houts)⟩

end Chain

/-! ## A linear graph -/

theorem fresh_compile {U : Type} {impl : LogicalImpl U} (h : impl.isTransform = true)
    {op : PhysicalOperator U} (hop : impl.compile = some op) : op.Fresh := by
  cases impl with
  | map op => cases hop; trivial
  | filter op => cases hop; trivial
  | window op =>
    cases hop
    unfold WindowLogicalOperator.compile
    cases op.spec.type with
    | count => trivial
    | time => exact ⟨op.spec, op.func, op.captured, rfl⟩
  | _ => cases h

/-- The watermarks of a source are not above the timestamps of its events. -/
theorem SourceLogicalOperator.watermark_lt {U : Type} {source : SourceLogicalOperator U}
    {es : List (Event Record)} (hes : SourcePhysicalOperator.Yields source.func source.captured es)
    {bound : Nat} (hbound : 0 < bound) (hts : ∀ e ∈ es, time e < bound) {wm : Watermark}
    (hwm : wm ∈ watermarks (source.sends es)) : wm.timestamp.toNat < bound := by
  unfold SourceLogicalOperator.sends at hwm
  rw [watermarks_elements, SourcePhysicalOperator.runToClose_eq_schedule hes] at hwm
  have hle := SourcePhysicalOperator.timestamp_le hwm
  have hlt := maxTime_lt hbound hts
  rw [List.nil_append] at hle
  omega

namespace DataflowGraph.IsLinear

variable {U : Type} {g : DataflowGraph U} {source : SourceLogicalOperator U}
  {transforms : List (LogicalImpl U)} {sink : SinkLogicalOperator U}

/-- The watermarks of the source are below what the counters of the time windows reach. -/
theorem watermarksFit (hspec : ∀ op, .window op ∈ transforms → op.spec.advance.toNat < 2 ^ 62)
    {es : List (Event Record)}
    (hes : SourcePhysicalOperator.Yields source.func source.captured es)
    (hts : ∀ e ∈ es, time e < 2 ^ 62) :
    ∀ op ∈ compileTransforms transforms, op.WatermarksFit (source.sends es) := by
  intro op hop
  obtain ⟨impl, himpl, hcompile⟩ := List.mem_filterMap.mp hop
  cases op with
  | timeWindow op =>
    cases impl with
    | window w =>
      have hspecOp : op.spec = w.spec := by
        have hcompile : w.compile = .timeWindow op := Option.some.inj hcompile
        unfold WindowLogicalOperator.compile at hcompile
        split at hcompile
        · cases hcompile
        · cases hcompile
          rfl
      have hadv := hspec w himpl
      intro wm hwm
      have := SourceLogicalOperator.watermark_lt hes (by decide) hts hwm
      rw [hspecOp]
      omega
    | _ => cases hcompile
  | _ => trivial

/-- The chain of a linear graph returns iff the counters of its time windows get past the events. -/
theorem run_ends_iff (hg : g.IsLinear source transforms sink)
    (hspec : ∀ op, .window op ∈ transforms → op.spec.advance.toNat < 2 ^ 62)
    {es : List (Event Record)}
    (hes : SourcePhysicalOperator.Yields source.func source.captured es)
    (hts : ∀ e ∈ es, time e < 2 ^ 62) (chs : Channels) :
    (∃ fuel r, Pipeline.run fuel
      (source.compile :: (compileTransforms transforms ++ [sink.compile])) chs = some r) ↔
      Chain.Clears (compileTransforms transforms) (source.sends es) := by
  have hfresh : ∀ op ∈ compileTransforms transforms ++ [sink.compile], op.Fresh := by
    refine List.forall_mem_append.mpr ⟨fun op hop => ?_, List.forall_mem_singleton.mpr trivial⟩
    obtain ⟨impl, himpl, hcompile⟩ := List.mem_filterMap.mp hop
    exact fresh_compile (hg.transforms impl himpl) hcompile
  have hfit : ∀ op ∈ compileTransforms transforms ++ [sink.compile],
      op.WatermarksFit (source.sends es) :=
    List.forall_mem_append.mpr ⟨watermarksFit hspec hes hts, List.forall_mem_singleton.mpr trivial⟩
  rw [← @Chain.clears_concat _ _ sink.compile (fun _ h => by cases h),
    ← Chain.runChain_ends_iff hfresh hfit]
  exact Pipeline.run_source_ends_iff rfl hes _ chs

end DataflowGraph.IsLinear

/-- **When the pipeline of a linear graph returns.** With timestamps and advances below `2^62` it
does iff the counter of every time window gets past the events that reach it. -/
theorem pipeline_ends_iff {U : Type} {g : DataflowGraph U} {source : SourceLogicalOperator U}
    {transforms : List (LogicalImpl U)} {sink : SinkLogicalOperator U}
    (hg : g.IsLinear source transforms sink) {keys : List OperatorId}
    (hkeys : keys.Perm g.inDegreeKeys)
    (hspec : ∀ op, .window op ∈ transforms → op.spec.advance.toNat < 2 ^ 62)
    {es : List (Event Record)}
    (hes : SourcePhysicalOperator.Yields source.func source.captured es)
    (hts : ∀ e ∈ es, time e < 2 ^ 62) (chs : Channels) :
    ∃ ops, (∀ fuel, transforms.length + 2 ≤ fuel → Pipeline.ofGraph fuel keys g = some ops) ∧
      ((∃ fuel r, Pipeline.run fuel ops chs = some r) ↔
        Chain.Clears (compileTransforms transforms) (source.sends es)) :=
  ⟨_, fun _ hfuel => hg.ofGraph_eq hkeys hfuel, hg.run_ends_iff hspec hes hts chs⟩

/-- Two time windows behind each other, of 5 and of 10. -/
theorem pipeline_ends_twoWindows : ∃ ops,
    Pipeline.ofGraph 4 twoWindows.inDegreeKeys twoWindows = some ops ∧
      ∃ fuel r, Pipeline.run fuel ops (fun _ => {}) = some r := by
  have hes : SourcePhysicalOperator.Yields (fun u : List (Event Record) => (u.head?, u.tail))
      [eventAt 3, eventAt 7] [eventAt 3, eventAt 7] := ⟨rfl, rfl, rfl⟩
  obtain ⟨ops, hops, hends⟩ := pipeline_ends_iff twoWindows_isLinear
    (List.Perm.refl twoWindows.inDegreeKeys) (fun op hop => by
      rcases List.mem_pair.mp hop with h | h
      · cases h
        decide
      · cases h
        decide) hes (by decide) fun _ => {}
  refine ⟨ops, hops 4 (Nat.le_refl 4), hends.mpr (Chain.clears_cons.mpr ⟨?_, fun n outs h => ?_⟩)⟩
  · show ∀ e ∈ events _, WindowSpec.Clears (timeTumblingWindow 5) e
    decide
  · have hrun : (PhysicalOperator.timeWindow (.create (timeTumblingWindow 5)
        (fun u es => (es.headD (eventAt 0), u)) ([] : List (Event Record)) none)).stage 5
        (SourceLogicalOperator.sends ⟨fun u => (u.head?, u.tail), [eventAt 3, eventAt 7], 0, 1⟩
          [eventAt 3, eventAt 7]) = some [.fire ⟨5, [eventAt 3], eventAt 3⟩,
            .next (.event (eventAt 3)), .fire ⟨10, [eventAt 7], eventAt 7⟩,
            .next (.event (eventAt 7))] := by decide
    obtain rfl := PhysicalOperator.stage_unique h hrun
    refine Chain.clears_cons.mpr ⟨?_, fun _ _ _ => Chain.clears_nil _⟩
    show ∀ e ∈ events _, WindowSpec.Clears (timeTumblingWindow 10) e
    decide

/-- The source yields the event 0; time windows of 1 that do not advance. -/
def still : DataflowGraphBuilder (List (Event Record)) where
  counter := 4
  edgeCounter := 2
  nodes :=
    [⟨⟨1⟩, "source", 1, .source ⟨fun u => (u.head?, u.tail), [eventAt 0], 0, 100⟩⟩,
      ⟨⟨2⟩, "window", 1, .window ⟨timeWindow 1 0, fun u es => (es.headD (eventAt 0), u), []⟩⟩,
      ⟨⟨3⟩, "sink", 1, .sink ⟨fun u _ => u, []⟩⟩]
  edges := [⟨⟨0⟩, ⟨1⟩, ⟨2⟩, .forward⟩, ⟨⟨1⟩, ⟨2⟩, ⟨3⟩, .forward⟩]

/-- `validate` accepts a window that does not advance, and the pipeline never returns. -/
theorem pipeline_never_ends : still.validate 5 = some .ok ∧
    still.graph.IsLinear ⟨fun u => (u.head?, u.tail), [eventAt 0], 0, 100⟩
      [.window ⟨timeWindow 1 0, fun u es => (es.headD (eventAt 0), u), []⟩]
      ⟨fun u _ => u, []⟩ ∧
    SourcePhysicalOperator.Yields (fun u : List (Event Record) => (u.head?, u.tail)) [eventAt 0]
      [eventAt 0] ∧
    ∃ ops, Pipeline.ofGraph 3 still.graph.inDegreeKeys still.graph = some ops ∧
      ∀ fuel chs, Pipeline.run fuel ops chs = none := by
  have hlinear : still.graph.IsLinear ⟨fun u => (u.head?, u.tail), [eventAt 0], 0, 100⟩
      [.window ⟨timeWindow 1 0, fun u es => (es.headD (eventAt 0), u), []⟩]
      ⟨fun u _ => u, []⟩ := by
    refine ⟨⟨still.graph.operators, ⟨List.Perm.refl _, by decide, by decide⟩, rfl⟩, ?_⟩
    simp [LogicalImpl.isTransform]
  have hes : SourcePhysicalOperator.Yields (fun u : List (Event Record) => (u.head?, u.tail))
      [eventAt 0] [eventAt 0] := ⟨rfl, rfl⟩
  refine ⟨by decide, hlinear, hes, _,
    hlinear.ofGraph_eq (List.Perm.refl _) (Nat.le_refl 3), fun fuel chs => ?_⟩
  rw [Option.eq_none_iff_forall_ne_some]
  intro r hrun
  have hclears := (hlinear.run_ends_iff (fun op hop => by
    cases List.mem_singleton.mp hop
    decide) hes (by decide) chs).mp ⟨fuel, r, hrun⟩
  have h : (timeWindow 1 0).Clears (eventAt 0) :=
    (Chain.clears_cons.mp hclears).1 (eventAt 0) (by decide)
  exact absurd h (by decide)

end Xtream
