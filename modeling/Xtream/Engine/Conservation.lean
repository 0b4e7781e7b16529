import Xtream.Engine.ProgramMeaning
import Xtream.Lib.Weights

/-!
# Conservation

The events have weights in a commutative monoid (the number in a record, or 1 to count them). When
each operator makes, of events with a total weight, events whose total weight depends on that alone,
so does the program.

* `LogicalImpl.Scales`: an operator turns a total weight into another one;
* `Denotes.total`: so do operators one after the other;
* `conserved`: the total weight of what the sink has received, from that of the source's events.
-/

namespace Xtream

open KahnNetwork SlidingWindow Weights

variable {U M : Type} [AddCommMonoid M]

/-! ## Operators -/

/-- The windows hold each event equally often: count windows that tumble, and time windows whose
size is a multiple of the advance. -/
def WindowSpec.Even (spec : WindowSpec) : Prop :=
  match spec.type with
  | .count => spec.advance = spec.size
  | .time => spec.advance.toNat ∣ spec.size.toNat

/-- How often they hold it. -/
def WindowSpec.copies (spec : WindowSpec) : Nat :=
  match spec.type with
  | .count => 1
  | .time => spec.size.toNat / spec.advance.toNat

/-- The operator turns events of a total weight into events of the weight that `scale` gives. A
filter drops events that weigh nothing then. -/
inductive LogicalImpl.Scales (weight : Event Record → M) :
    LogicalImpl U → (M →+ M) → (Event Record → M) → Prop
  | map {op : MapLogicalOperator U} {scale : M →+ M} {weight' : Event Record → M} :
      (∀ u e, weight' (op.func u e).1 = scale (weight e)) → Scales weight (.map op) scale weight'
  | filter {op : FilterLogicalOperator U} {scale : M →+ M} {weight' : Event Record → M} :
      (∀ u e, (if (op.func u e).1.1 then weight' (op.func u e).1.2 else 0) = scale (weight e)) →
      Scales weight (.filter op) scale weight'
  | window {op : WindowLogicalOperator U} {scale : M →+ M} {weight' : Event Record → M} :
      op.spec.Even →
      (∀ u es, es ≠ [] → weight' (op.func u es).1 = scale (total weight es)) →
      Scales weight (.window op) (op.spec.copies • scale) weight'

/-- Operators one after the other. -/
inductive Conserves : (Event Record → M) → List (LogicalImpl U) → (M →+ M) →
    (Event Record → M) → Prop
  | nil (weight : Event Record → M) : Conserves weight [] (.id M) weight
  | cons {weight weight' weight'' : Event Record → M} {impl : LogicalImpl U}
      {transforms : List (LogicalImpl U)} {scale scale' : M →+ M} :
      impl.Scales weight scale weight' → Conserves weight' transforms scale' weight'' →
      Conserves weight (impl :: transforms) (scale'.comp scale) weight''

variable {weight weight' : Event Record → M} {scale : M →+ M}

theorem total_mapAll {func : U → Event Record → Event Record × U}
    (h : ∀ u e, weight' (func u e).1 = scale (weight e)) (u : U) (es : List (Event Record)) :
    total weight' (mapAll func u es) = scale (total weight es) := by
  induction es generalizing u with
  | nil => simp [mapAll]
  | cons e es ih => simp [mapAll, h, ih]

theorem total_filterAll {func : U → Event Record → (Bool × Event Record) × U}
    (h : ∀ u e, (if (func u e).1.1 then weight' (func u e).1.2 else 0) = scale (weight e)) (u : U)
    (es : List (Event Record)) : total weight' (filterAll func u es) = scale (total weight es) := by
  induction es generalizing u with
  | nil => simp [filterAll]
  | cons e es ih =>
    have he := h u e
    by_cases hp : (func u e).1.1 = true
    · simp only [hp, if_true] at he
      simp [filterAll, hp, ih, he]
    · simp only [hp] at he
      simp [filterAll, hp, ih, ← he]

/-- The results of a window function on vectors that are not empty. -/
theorem total_applyAll {func : U → List (Event Record) → Event Record × U}
    (h : ∀ u es, es ≠ [] → weight' (func u es).1 = scale (total weight es)) (u : U)
    {vs : List (List (Event Record))} (hvs : ∀ v ∈ vs, v ≠ []) :
    total weight' (CountWindowPhysicalOperator.applyAll func u vs).1 =
      scale (total weight vs.flatten) := by
  induction vs generalizing u with
  | nil => simp [CountWindowPhysicalOperator.applyAll]
  | cons v vs ih =>
    obtain ⟨hv, hvs⟩ := List.forall_mem_cons.mp hvs
    simp [CountWindowPhysicalOperator.applyAll, h u v hv, ih _ hvs]

/-- The vectors of a window hold each event equally often. -/
theorem WindowSpec.Cuts.total {spec : WindowSpec} {es : List (Event Record)}
    {vs : List (List (Event Record))} (h : spec.Cuts es vs) {bound : Nat} (hfits : spec.Fits bound)
    (heven : spec.Even) : total weight vs.flatten = spec.copies • total weight es := by
  unfold Even at heven
  unfold copies
  cases h with
  | count htype =>
    rw [htype] at heven
    have hstep : CountWindowPhysicalOperator.stepOf spec = spec.size.toNat := by
      rw [CountWindowPhysicalOperator.stepOf, heven, Nat.min_self]
    simp only [htype]
    rw [one_nsmul, ← total_slices (hfits.size htype) es, countVectors, hstep,
      CountWindowPhysicalOperator.vectors, hstep, List.flatten_append, total_append]
    split
    · rename_i hrest
      rw [hrest]
      rfl
    · rw [List.flatten_singleton]
  | @time calls htype hbatch _ =>
    rw [htype] at heven
    simp only [htype]
    rw [← List.flatMap_def, hbatch.total hfits.advance heven]

theorem LogicalImpl.Means.total {impl : LogicalImpl U} {bound : Nat} (hwithin : impl.Within bound)
    {es es' : List (Event Record)} (h : impl.Means es es')
    (hscales : impl.Scales weight scale weight') :
    total weight' es' = scale (total weight es) := by
  cases hscales with
  | map hop =>
    cases h
    exact total_mapAll hop _ es
  | filter hop =>
    cases h
    exact total_filterAll hop _ es
  | @window op scale _ heven hop =>
    cases h with
    | window hcuts =>
      rw [total_applyAll hop _ fun v hv => (hcuts.mem hwithin.1 hv).1,
        hcuts.total hwithin.1 heven, map_nsmul, AddMonoidHom.nsmul_apply]

/-- The total weight goes through the operators. -/
theorem Denotes.total {transforms : List (LogicalImpl U)} {bound : Nat}
    (hwithin : ∀ impl ∈ transforms, impl.Within bound) {es es' : List (Event Record)}
    (h : Denotes transforms es es') (hconserves : Conserves weight transforms scale weight') :
    total weight' es' = scale (total weight es) := by
  induction hconserves generalizing es with
  | nil weight =>
    cases h
    rfl
  | cons hscales _ ih =>
    obtain ⟨himpl, hrest⟩ := List.forall_mem_cons.mp hwithin
    cases h with
    | cons hmeans hdenotes =>
      rw [ih hrest hdenotes, hmeans.total himpl hscales]
      rfl

/-! ## Programs -/

/-- **Nothing is lost, and nothing counts twice.** When `execute` has returned, under any schedule,
the total weight of what the sink has received is what the operators make of the total weight of the
source's events. -/
theorem conserved {g : DataflowGraph U} {source : SourceLogicalOperator U}
    {transforms : List (LogicalImpl U)} {sink : SinkLogicalOperator U}
    (hg : g.IsLinear source transforms sink) {keys : List OperatorId}
    (hkeys : keys.Perm g.inDegreeKeys) {es : List (Event Record)}
    (hes : SourcePhysicalOperator.Yields source.func source.captured es)
    (hdisorder : BoundedDisorder source.allowedLateness es) {bound : Nat}
    (hbound : maxTime es ≤ bound) (hwithin : ∀ impl ∈ transforms, impl.Within bound)
    (hkeeps : ∀ impl ∈ transforms.takeWhile (fun impl => !impl.isWindow), impl.KeepsTime)
    (hconserves : Conserves weight transforms scale weight') :
    ∃ k pipelines, (∀ fuel, k ≤ fuel → ExecutionGraph.build fuel keys g = some pipelines) ∧
      ∀ t s, Steps Program.Step (Program.start pipelines.length pipelines) t s →
        s.engine.execute = .idle →
          total weight' (sinks (calls (Program.jobActs t))) = scale (total weight es) := by
  obtain ⟨fuel, outs, houts, hdenotes⟩ := hg.inOrder_denotes hes hdisorder hbound hwithin hkeeps
  refine ⟨transforms.length + 2, _, fun fuel hfuel => hg.build_eq hkeys hfuel,
    fun t s ht hidle => ?_⟩
  rw [(hg.pieces.sink_agrees houts (Program.steps_job ht).2).2
    (Program.job_finished_of_idle ht hidle)]
  exact hdenotes.total hwithin hconserves

namespace Main

/-- The weight of an event in `main`: the number in its record. -/
def number (e : Event Record) : BitVec 32 := (raw e).toBitVec

theorem number_makeRecord (n : Int32) (timestamp : UInt64) :
    number ⟨makeRecord n, timestamp, []⟩ = n.toBitVec := by
  simp [number, raw, makeRecord, Record.addField, Record.field, StreamSchema.addField,
    FieldValue.makeI32, FieldValue.asI32]

theorem number_sum (u : Int32) (es : List (Event Record)) :
    number (sum u es).1 = total number es := by
  have hfold : ∀ (n : Int32) (es : List (Event Record)),
      ((es.map raw).foldl (· + ·) n).toBitVec = n.toBitVec + total number es := by
    intro n es
    induction es generalizing n with
    | nil => simp
    | cons e es ih => simp [ih, number, add_assoc]
  rw [Main.sum, number_makeRecord, hfold]
  exact zero_add _

theorem conserves : Conserves number [.map ⟨double, 0⟩, .window ⟨countTumblingWindow 5, sum, 0⟩]
    (((AddMonoidHom.id _).comp ((countTumblingWindow 5).copies • .id _)).comp (2 • .id _))
      number := by
  refine .cons (.map fun u e => ?_) (.cons (.window rfl fun u es _ => number_sum u es) (.nil _))
  show number (double u e).1 = 2 • number e
  rw [double, number_makeRecord, two_nsmul, ← mul_two]
  rfl

end Main

/-- In `main`: twice the total of the numbers from 1 to 15. -/
theorem conserved_main : ∃ g k pipelines, Main.graph = some g ∧
    (∀ fuel, k ≤ fuel → ExecutionGraph.build fuel g.inDegreeKeys g = some pipelines) ∧
    ∀ t s, Steps Program.Step (Program.start pipelines.length pipelines) t s →
      s.engine.execute = .idle →
        total Main.number (sinks (calls (Program.jobActs t))) = 240 := by
  obtain ⟨g, hgraph, hg⟩ := Main.graph_isLinear
  obtain ⟨k, pipelines, hbuild, h⟩ := conserved hg (List.Perm.refl g.inDegreeKeys)
    Main.count_yields Main.inputs_disorder Main.inputs_bound Main.within Main.keepsTime
    Main.conserves
  exact ⟨g, k, pipelines, hgraph, hbuild, fun t s ht hidle => (h t s ht hidle).trans (by
    decide +kernel)⟩

end Xtream
