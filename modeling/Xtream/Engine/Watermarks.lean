import Xtream.Engine.Calls
import Xtream.Engine.Agreement
import Xtream.Engine.Split
import Xtream.Engine.FusedSplit

/-!
# Where the watermarks go

Map and filter pass a watermark on. A window does not, and a channel carries events only, so no
watermark gets behind the first window of a chain.

* `Chain.seen_executeTraceAt`: the operators that a watermark reaches;
* `Pipeline.trace_carries`, `Pipeline.seen_trace`: the watermarks that the operators of a run see,
  behind a source and behind a channel source;
* `Pipeline.seen_of_runPulls`: those that the source sends;
* `watermarks_flow_iff`: when they reach every operator of a linear graph.
-/

namespace Xtream

/-- The watermark of a call of `execute`. -/
def Method.watermark? : Method → Option Watermark
  | .execute x => x.watermark?
  | _ => none

/-- The watermarks that are passed to the operator at a position. -/
def seen (i : Nat) (tr : Trace) : List Watermark :=
  tr.filterMap fun a => if a.1 = i then a.2.watermark? else none

@[simp] theorem seen_nil (i : Nat) : seen i [] = [] := rfl

@[simp] theorem seen_append (i : Nat) (tr tr' : Trace) :
    seen i (tr ++ tr') = seen i tr ++ seen i tr' := List.filterMap_append

theorem seen_cons (i : Nat) (a : Nat × Method) (tr : Trace) :
    seen i (a :: tr) = (if a.1 = i then a.2.watermark? else none).toList ++ seen i tr := by
  unfold seen
  rw [List.filterMap_cons]
  cases (if a.1 = i then a.2.watermark? else none) <;> rfl

/-- An operator that passes watermarks on. -/
def Shape.forwards : Shape → Bool
  | .map => true
  | .filter => true
  | _ => false

/-- The operators that a watermark reaches which enters a chain, by their offset. -/
def reaches : List Shape → Nat → Bool
  | [], _ => false
  | _ :: _, 0 => true
  | s :: ss, k + 1 => s.forwards && reaches ss k

/-- They are those with no other operator than maps and filters before them. -/
theorem reaches_iff {ss : List Shape} {k : Nat} :
    reaches ss k = true ↔ k < ss.length ∧ ∀ s ∈ ss.take k, s.forwards = true := by
  induction ss generalizing k with
  | nil => simp [reaches]
  | cons s ss ih =>
    cases k with
    | zero => simp [reaches]
    | succ k => simp [reaches, ih, and_left_comm]

namespace PhysicalOperator

variable {U : Type} {op : PhysicalOperator U} {fuel : Nat} {hasNext : Bool}
  {read : Option (Event Record)} {x : StreamElement}

theorem watermarks_emit (oc : Option ChannelId) (e : Event Record) :
    watermarks (nexts (emit oc e)) = [] := by
  cases oc <;> rfl

theorem watermarks_outputs (op : TimeWindowPhysicalOperator U) (fs : List Firing) :
    watermarks (nexts (op.outputs fs)) = [] := by
  induction fs with
  | nil => rfl
  | cons f fs ih =>
    have happend : op.outputs (f :: fs) = .fire f :: (emit op.outputChannel f.result ++
      op.outputs fs) := rfl
    rw [happend]
    show watermarks (nexts (emit op.outputChannel f.result ++ op.outputs fs)) = []
    rw [nexts_append, watermarks_append, watermarks_emit, ih]
    rfl

/-- An operator behind the root passes a watermark on if it is a map or a filter. -/
theorem outputsWithin_forwards {wm : Watermark} (h : op.shape.forwards = true) :
    op.outputsWithin fuel hasNext read (.watermark wm) = [.next (.watermark wm)] := by
  cases op with
  | map op => rfl
  | filter op => rfl
  | _ => cases h

/-- The other calls of such an operator pass no watermark. -/
theorem watermarks_outputsWithin (hsource : op.shape ≠ .source)
    (h : op.shape.forwards = true → x.watermark? = none) :
    watermarks (nexts (op.outputsWithin fuel hasNext read x)) = [] := by
  cases op with
  | source op => exact absurd rfl hsource
  | channelSource op =>
    show watermarks (nexts (op.execute hasNext read).2) = []
    unfold ChannelSourcePhysicalOperator.execute
    split <;> rfl
  | map op =>
    cases x with
    | event e => rfl
    | watermark wm => cases h rfl
  | filter op =>
    cases x with
    | event e =>
      show watermarks (nexts (op.execute (.event e)).2) = []
      unfold FilterPhysicalOperator.execute
      by_cases hp : (op.pred op.captured e).1.1 = true <;> simp [hp, nexts, watermarks, Output.next?]
    | watermark wm => cases h rfl
  | countWindow op =>
    show watermarks (nexts (op.execute x).2) = []
    cases x with
    | watermark wm => rfl
    | event e =>
      by_cases hfull : op.buffer.length + 1 = op.spec.size.toNat
      · rw [CountWindowPhysicalOperator.execute_of_eq hfull]
        exact watermarks_emit _ _
      · rw [CountWindowPhysicalOperator.execute_of_ne hfull]
        rfl
  | timeWindow op => exact watermarks_outputs op _
  | sink op => cases x <;> rfl

theorem watermarks_closeOutputsWithin (hsource : op.shape ≠ .source) :
    watermarks (nexts (op.closeOutputsWithin fuel)) = [] := by
  cases op with
  | source op => exact absurd rfl hsource
  | countWindow op =>
    show watermarks (nexts op.close.2) = []
    cases hoc : op.outputChannel with
    | none => rw [CountWindowPhysicalOperator.close_none op hoc]; rfl
    | some ch =>
      unfold CountWindowPhysicalOperator.close
      simp only [hoc]
      by_cases hempty : op.buffer.isEmpty = true <;>
        simp [hempty, nexts, watermarks, Output.next?]
  | timeWindow op =>
    unfold closeOutputsWithin
    rw [nexts_append, watermarks_append, watermarks_outputs, List.nil_append]
    split
    · cases op.outputChannel <;> rfl
    · rfl
  | _ => rfl

end PhysicalOperator

namespace Chain

variable {U : Type} {fuel : Nat} {i j : Nat}

/-- What an operator calls behind it, without a watermark among it. -/
theorem seen_deliverTrace_eq_nil {trace : Chain U → StreamElement → Trace} {ops : Chain U}
    (htrace : ∀ ops' x, shapes ops' = shapes ops → x.watermark? = none → seen i (trace ops' x) = [])
    {outs : List Output} (houts : watermarks (nexts outs) = []) :
    seen i (deliverTrace fuel trace ops outs) = [] := by
  induction outs generalizing ops with
  | nil => rfl
  | cons o outs ih =>
    cases o with
    | next x =>
      obtain ⟨hx, houts⟩ : x.watermark? = none ∧ watermarks (nexts outs) = [] := by
        cases x with
        | event e => exact ⟨rfl, houts⟩
        | watermark wm => cases houts
      unfold deliverTrace
      rw [seen_append, htrace ops x rfl hx, List.nil_append]
      cases hr : execute fuel none ops x with
      | none => rfl
      | some r =>
        have hshape := (execute_shape hr).1
        exact ih (fun ops' y hops' => htrace ops' y (hops'.trans hshape)) houts
    | _ => exact ih htrace houts

/-- An operator behind the chain's first one sees what that one sees, or nothing. -/
theorem seen_deliverTrace {trace : Chain U → StreamElement → Trace} {ops : Chain U} {b : Bool}
    (htrace : ∀ ops' x, shapes ops' = shapes ops →
      seen i (trace ops' x) = if b then seen j (trace ops' x) else []) (outs : List Output) :
    seen i (deliverTrace fuel trace ops outs) =
      if b then seen j (deliverTrace fuel trace ops outs) else [] := by
  induction outs generalizing ops with
  | nil => cases b <;> rfl
  | cons o outs ih =>
    cases o with
    | next x =>
      unfold deliverTrace
      rw [seen_append, seen_append, htrace ops x rfl]
      cases hr : execute fuel none ops x with
      | none => cases b <;> simp
      | some r =>
        have hshape := (execute_shape hr).1
        have hrest := @ih r.1 fun ops' y hops' => htrace ops' y (hops'.trans hshape)
        rw [hrest]
        cases b <;> simp
    | _ => exact ih htrace

/-- When the calls return, the first operator has seen all the watermarks. -/
theorem seen_deliverTrace_eq {trace : Chain U → StreamElement → Trace} {ops : Chain U}
    (htrace : ∀ ops' x, shapes ops' = shapes ops → seen i (trace ops' x) = x.watermark?.toList)
    {outs : List Output} {r : Chain U × List Output}
    (h : deliver (execute fuel none) ops outs = some r) :
    seen i (deliverTrace fuel trace ops outs) = watermarks (nexts outs) := by
  induction outs generalizing ops r with
  | nil => rfl
  | cons o outs ih =>
    cases hn : o.next? with
    | none =>
      rw [deliver_of_other hn] at h
      obtain ⟨s, hs, -⟩ := Option.map_eq_some_iff.mp h
      cases o with
      | next x => cases hn
      | _ => exact ih htrace hs
    | some x =>
      obtain rfl := Output.eq_next hn
      rw [deliver_of_next] at h
      obtain ⟨s, hs, h⟩ := Option.bind_eq_some_iff.mp h
      obtain ⟨t, ht, -⟩ := Option.map_eq_some_iff.mp h
      have hshape := (execute_shape hs).1
      unfold deliverTrace
      rw [seen_append, htrace ops x rfl, hs]
      show _ ++ seen i (deliverTrace fuel trace s.1 outs) = _
      rw [ih (fun ops' y hops' => htrace ops' y (hops'.trans hshape)) ht]
      cases x <;> rfl

/-- The operators that a watermark reaches, in a chain without a source. -/
theorem seen_executeTraceAt {depth pos : Nat} {read : Option (Event Record)} {ops : Chain U}
    {x : StreamElement} (hops : .source ∉ shapes ops) (hdepth : ops.length ≤ depth) (i : Nat) :
    seen i (executeTraceAt fuel depth pos read ops x) =
      if pos ≤ i ∧ reaches (shapes ops) (i - pos) = true then x.watermark?.toList else [] := by
  induction depth generalizing pos read ops x with
  | zero =>
    obtain rfl := List.length_eq_zero_iff.mp (Nat.le_zero.mp hdepth)
    simp [executeTraceAt, shapes, reaches]
  | succ depth ih =>
    cases ops with
    | nil => simp [executeTraceAt, shapes, reaches]
    | cons op rest =>
      obtain ⟨hsource, hrest⟩ : op.shape ≠ .source ∧ .source ∉ shapes rest :=
        ⟨fun h => hops (h ▸ List.mem_cons_self), fun h => hops (List.mem_cons_of_mem _ h)⟩
      have hbehind : ∀ (ops' : Chain U) y, shapes ops' = shapes rest →
          seen i (executeTraceAt fuel depth (pos + 1) none ops' y) =
            if pos + 1 ≤ i ∧ reaches (shapes rest) (i - (pos + 1)) = true then y.watermark?.toList
            else [] := by
        intro ops' y hops'
        rw [ih (hops' ▸ hrest) ((length_of_shapes hops').trans_le (Nat.le_of_succ_le_succ hdepth)),
          hops']
      have hdeliver : seen i (deliverTrace fuel (executeTraceAt fuel depth (pos + 1) none) rest
          (op.outputsWithin fuel (!rest.isEmpty) read x)) =
          if pos + 1 ≤ i ∧ (op.shape.forwards = true ∧
            reaches (shapes rest) (i - (pos + 1)) = true) then x.watermark?.toList else [] := by
        by_cases hpass : op.shape.forwards = true ∧ x.watermark? ≠ none
        · obtain ⟨hforwards, hx⟩ := hpass
          cases x with
          | event e => exact absurd rfl hx
          | watermark wm =>
            rw [PhysicalOperator.outputsWithin_forwards hforwards, deliverTrace, seen_append,
              hbehind rest _ rfl]
            cases execute fuel none rest (.watermark wm) <;> simp [hforwards, deliverTrace]
        · have hnone : op.shape.forwards = true → x.watermark? = none := fun h =>
            not_not.mp fun hx => hpass ⟨h, hx⟩
          rw [seen_deliverTrace_eq_nil (fun ops' y hops' hy => by simp [hbehind ops' y hops', hy])
            (PhysicalOperator.watermarks_outputsWithin hsource hnone)]
          by_cases hforwards : op.shape.forwards = true
          · simp [hnone hforwards]
          · simp [hforwards]
      rw [executeTraceAt, seen_cons, hdeliver]
      rcases Nat.lt_trichotomy i pos with hlt | rfl | hgt
      · simp [Nat.not_le.mpr hlt, Nat.ne_of_gt hlt, Nat.not_le.mpr (Nat.lt_succ_of_lt hlt)]
      · simp [shapes, reaches, Method.watermark?]
      · obtain ⟨k, rfl⟩ := Nat.exists_eq_add_of_lt hgt
        have hle : pos ≤ pos + k + 1 := by omega
        have hk : pos + k + 1 - pos = k + 1 := by omega
        have hk' : pos + k + 1 - (pos + 1) = k := by omega
        simp [hk, hk', hle, shapes, reaches, Nat.ne_of_lt hgt]

theorem seen_executeTrace {pos : Nat} {read : Option (Event Record)} {ops : Chain U}
    {x : StreamElement} (hops : .source ∉ shapes ops) (i : Nat) :
    seen i (executeTrace fuel pos read ops x) =
      if pos ≤ i ∧ reaches (shapes ops) (i - pos) = true then x.watermark?.toList else [] :=
  seen_executeTraceAt hops (Nat.le_refl _) i

/-- The operators behind the root see the watermarks that the first of them sees, as long as there
are only maps and filters before them; those behind see none. -/
def Carries (ss : List Shape) (tr : Trace) : Prop :=
  ∀ i, seen (i + 1) tr = if reaches ss i then seen 1 tr else []

theorem Carries.append {ss : List Shape} {tr tr' : Trace} (h : Carries ss tr)
    (h' : Carries ss tr') : Carries ss (tr ++ tr') := by
  intro i
  rw [seen_append, seen_append, h i, h' i]
  cases reaches ss i <;> simp

theorem carries_of_nil {ss : List Shape} {tr : Trace} (h : ∀ i, seen i tr = []) :
    Carries ss tr := by
  intro i
  simp [h]

/-- What a source calls behind it. -/
theorem carries_deliverTrace {trace : Chain U → StreamElement → Trace} {rest : Chain U}
    (htrace : ∀ ops' x, shapes ops' = shapes rest → ∀ i, seen i (trace ops' x) =
      if 1 ≤ i ∧ reaches (shapes rest) (i - 1) = true then x.watermark?.toList else [])
    (outs : List Output) : Carries (shapes rest) (deliverTrace fuel trace rest outs) := by
  intro i
  refine seen_deliverTrace (fun ops' x hops' => ?_) outs
  rw [htrace ops' x hops', htrace ops' x hops']
  cases shapes rest <;> simp [reaches]

/-- `execute` of a source. -/
theorem carries_executeTrace {read : Option (Event Record)} {op : SourcePhysicalOperator U}
    {rest : Chain U} {x : StreamElement} (hrest : .source ∉ shapes rest) :
    Carries (shapes rest) (executeTrace fuel 0 read (.source op :: rest) x) := by
  refine carries_deliverTrace (fun ops' y hops' i => ?_) _
  rw [seen_executeTraceAt (hops' ▸ hrest) (length_of_shapes hops').le, hops']

/-- `close` of a source. -/
theorem carries_closeTraceAt {op : SourcePhysicalOperator U} {rest : Chain U}
    (hrest : .source ∉ shapes rest) :
    Carries (shapes rest) (closeTraceAt fuel 0 0 (.source op :: rest)) := by
  refine carries_deliverTrace (fun ops' y hops' i => ?_) _
  rw [seen_executeTrace (hops' ▸ hrest), hops']

/-- `close` of another operator passes no watermark. -/
theorem seen_closeTraceAt {pos k : Nat} {ops : Chain U} (hops : .source ∉ (shapes ops).drop k) :
    seen i (closeTraceAt fuel pos k ops) = [] := by
  induction k generalizing pos ops with
  | zero =>
    cases ops with
    | nil => rfl
    | cons op rest =>
      obtain ⟨hsource, hrest⟩ : op.shape ≠ .source ∧ .source ∉ shapes rest :=
        ⟨fun h => hops (h ▸ List.mem_cons_self), fun h => hops (List.mem_cons_of_mem _ h)⟩
      have hbehind : ∀ (ops' : Chain U) y, shapes ops' = shapes rest → y.watermark? = none →
          seen i (executeTrace fuel (pos + 1) none ops' y) = [] := by
        intro ops' y hops' hy
        rw [seen_executeTrace (hops' ▸ hrest), hy]
        simp
      rw [closeTraceAt, seen_cons, seen_deliverTrace_eq_nil hbehind
        (PhysicalOperator.watermarks_closeOutputsWithin hsource)]
      simp [Method.watermark?]
  | succ k ih =>
    cases ops with
    | nil => rfl
    | cons op rest => exact ih hops

theorem seen_closeTraceFrom {m k : Nat} {ops : Chain U} (hops : .source ∉ (shapes ops).drop k) :
    seen i (closeTraceFrom fuel m k ops) = [] := by
  induction m generalizing k ops with
  | zero => rfl
  | succ m ih =>
    rw [closeTraceFrom, seen_append, seen_closeTraceAt hops, List.nil_append]
    cases hr : closeAt fuel k ops with
    | none => rfl
    | some r =>
      have hshape := (closeAt_shape hr).1
      refine ih fun h => hops ?_
      rw [hshape, ← List.tail_drop] at h
      exact List.mem_of_mem_tail h

/-- The closes of a chain with a source at the root. -/
theorem carries_closeTraceFrom {m : Nat} {op : SourcePhysicalOperator U} {rest : Chain U}
    (hrest : .source ∉ shapes rest) :
    Carries (shapes rest) (closeTraceFrom fuel m 0 (.source op :: rest)) := by
  cases m with
  | zero => exact carries_of_nil fun _ => rfl
  | succ m =>
    refine (carries_closeTraceAt hrest).append (carries_of_nil fun i => ?_)
    cases hr : closeAt fuel 0 (.source op :: rest) with
    | none => rfl
    | some r =>
      have hshape := (closeAt_shape hr).1
      refine seen_closeTraceFrom fun h => hrest ?_
      rwa [hshape] at h

theorem eq_source_of_shapes {ops : Chain U} {ss : List Shape} (h : shapes ops = .source :: ss) :
    ∃ op rest, ops = .source op :: rest ∧ shapes rest = ss := by
  obtain ⟨root, rest, rfl, hroot, hrest⟩ := List.map_eq_cons_iff.mp h
  cases root with
  | source op => exact ⟨op, rest, rfl, hrest⟩
  | _ => cases hroot

/-- `execute` of a source that returns: its next operator has seen what the source has sent. -/
theorem seen_of_execute {read : Option (Event Record)} {op : SourcePhysicalOperator U}
    {rest : Chain U} {x : StreamElement} (hrest : .source ∉ shapes rest) (hne : rest ≠ [])
    {r : Chain U × List Output} (h : execute fuel read (.source op :: rest) x = some r) :
    seen 1 (executeTrace fuel 0 read (.source op :: rest) x) = sent op.execute.2 ∧
      ∃ rest', r.1 = .source op.execute.1 :: rest' ∧ shapes rest' = shapes rest := by
  have hshape := (execute_shape h).1
  rw [execute_cons] at h
  obtain ⟨s, hs, rfl⟩ := Option.map_eq_some_iff.mp h
  refine ⟨?_, s.1, rfl, ?_⟩
  · have hseen := @seen_deliverTrace_eq U fuel 1 (executeTraceAt fuel rest.length 1 none) rest
      (fun ops' y hops' => by
        rw [seen_executeTraceAt (hops' ▸ hrest) (length_of_shapes hops').le, hops']
        cases rest with
        | nil => exact absurd rfl hne
        | cons _ _ => simp [shapes, reaches]) _ _ hs
    refine hseen.trans ?_
    rw [SourcePhysicalOperator.outputs, nexts_map_next, watermarks_elements]
  · exact (List.cons.inj hshape).2

/-- `close` of a source that returns. -/
theorem seen_of_closeAt {op : SourcePhysicalOperator U} {rest : Chain U}
    (hrest : .source ∉ shapes rest) (hne : rest ≠ []) {r : Chain U × List Output}
    (h : closeAt fuel 0 (.source op :: rest) = some r) :
    seen 1 (closeTraceAt fuel 0 0 (.source op :: rest)) = sent op.close.2 := by
  obtain ⟨s, hs, -⟩ := Option.bind_eq_some_iff.mp h
  have hseen := @seen_deliverTrace_eq U fuel 1 (executeTrace fuel 1 none) rest
    (fun ops' y hops' => by
      rw [seen_executeTrace (hops' ▸ hrest), hops']
      cases rest with
      | nil => exact absurd rfl hne
      | cons _ _ => simp [shapes, reaches]) _ _ hs
  refine hseen.trans ?_
  rw [SourcePhysicalOperator.outputs, nexts_map_next, watermarks_elements]

end Chain

namespace Pipeline

open Chain (shapes Carries carries_of_nil)

variable {U : Type} {mode : Mode} {fuel : Nat} {ops : Chain U}
  {reads : List (Option (Event Record))} {ss : List Shape}

theorem seen_walk (i : Nat) {m : Method} (hm : m.watermark? = none) (ops : Chain U) :
    seen i (walk m ops) = [] := by
  simp [seen, walk, hm]

theorem pulls_shapes {ops' : Chain U} (h : pulls mode fuel ops reads = some ops') :
    shapes ops' = shapes ops := by
  induction reads generalizing ops with
  | nil =>
    cases h
    rfl
  | cons read reads ih =>
    obtain ⟨r, hr, h⟩ := Option.bind_eq_some_iff.mp h
    have hshape := (Chain.execute_shape hr).1
    split at h
    · cases h
      exact hshape
    · exact (ih h).trans hshape

theorem pullsTrace_carries (hops : shapes ops = .source :: ss) (hss : .source ∉ ss) :
    Carries ss (pullsTrace mode fuel ops reads) := by
  induction reads generalizing ops with
  | nil => exact carries_of_nil fun _ => rfl
  | cons read reads ih =>
    obtain ⟨op, rest, rfl, hrest⟩ := Chain.eq_source_of_shapes hops
    subst hrest
    refine (Chain.carries_executeTrace hss).append ?_
    cases hr : Chain.execute fuel read (.source op :: rest) dummy with
    | none => exact carries_of_nil fun _ => rfl
    | some r =>
      show Carries _ (if _ then [] else _)
      split
      · exact carries_of_nil fun _ => rfl
      · exact ih ((Chain.execute_shape hr).1.trans hops)

/-- The watermarks of a run behind a source: they get as far as the first operator that does
not pass them on. -/
theorem trace_carries (hops : shapes ops = .source :: ss) (hss : .source ∉ ss) :
    Carries ss (trace mode fuel ops reads) := by
  unfold trace
  have hsetup := @carries_of_nil ss (walk .setup ops) fun i => seen_walk i rfl ops
  have hopen := @carries_of_nil ss (walk .open_ ops) fun i => seen_walk i rfl ops
  refine ((hsetup.append hopen).append (pullsTrace_carries hops hss)).append ?_
  cases hpulls : pulls mode fuel ops reads with
  | none => exact carries_of_nil fun _ => rfl
  | some ops' =>
    obtain ⟨op, rest, rfl, hrest⟩ := Chain.eq_source_of_shapes ((pulls_shapes hpulls).trans hops)
    subst hrest
    refine (Chain.carries_closeTraceFrom hss).append (carries_of_nil fun i => ?_)
    cases hr : Chain.closeAll fuel (.source op :: rest) with
    | none => rfl
    | some r => exact seen_walk i rfl r.1

theorem seen_pullsTrace (hops : .source ∉ shapes ops) (i : Nat) :
    seen i (pullsTrace mode fuel ops reads) = [] := by
  induction reads generalizing ops with
  | nil => rfl
  | cons read reads ih =>
    rw [pullsTrace, seen_append, Chain.seen_executeTrace hops]
    cases hr : Chain.execute fuel read ops dummy with
    | none => simp [dummy]
    | some r =>
      have hrest := @ih r.1 ((Chain.execute_shape hr).1 ▸ hops)
      by_cases hstops : mode.stops r.1 = true <;> simp [dummy, hstops, hrest]

/-- A channel carries no watermarks: behind a channel source no operator sees one. -/
theorem seen_trace (hops : .source ∉ shapes ops) (i : Nat) :
    seen i (trace mode fuel ops reads) = [] := by
  unfold trace
  rw [seen_append, seen_append, seen_append, seen_walk i rfl, seen_walk i rfl,
    seen_pullsTrace hops]
  cases hpulls : pulls mode fuel ops reads with
  | none => rfl
  | some ops' =>
    show seen i (_ ++ _) = []
    have hclosed : .source ∉ (shapes ops').drop 0 := by
      rwa [List.drop_zero, pulls_shapes hpulls]
    rw [seen_append, Chain.seen_closeTraceFrom hclosed]
    cases hr : Chain.closeAll fuel ops' with
    | none => rfl
    | some r => exact seen_walk i rfl r.1

/-- The pulls of a source. -/
theorem pulls_source {op : SourcePhysicalOperator U} {rest ops' : Chain U}
    (hrest : .source ∉ shapes rest) (hne : rest ≠ [])
    (h : pulls mode fuel (.source op :: rest) reads = some ops') :
    ∃ rest', ops' = .source (op.executeTimes (pullCount mode fuel (.source op :: rest) reads)).1 ::
        rest' ∧ shapes rest' = shapes rest ∧
      seen 1 (pullsTrace mode fuel (.source op :: rest) reads) =
        sent (op.executeTimes (pullCount mode fuel (.source op :: rest) reads)).2 := by
  induction reads generalizing op rest with
  | nil =>
    cases h
    exact ⟨rest, rfl, rfl, rfl⟩
  | cons read reads ih =>
    obtain ⟨r, hr, h⟩ := Option.bind_eq_some_iff.mp h
    obtain ⟨hseen, rest', hr', hshape⟩ := Chain.seen_of_execute hrest hne hr
    have hsent : ∀ n, sent (op.executeTimes (n + 1)).2 =
        sent op.execute.2 ++ sent (op.execute.1.executeTimes n).2 := fun n => sent_append _ _
    rw [pullsTrace, pullCount, seen_append, hseen]
    simp only [hr]
    split at h
    · rename_i hstops
      cases h
      simp only [if_pos hstops]
      exact ⟨rest', hr', hshape, (hsent 0).symm⟩
    · rename_i hstops
      simp only [if_neg hstops, hsent]
      rw [hr'] at h ⊢
      have hne' : rest' ≠ [] := fun hnil => hne (by simpa [shapes, hnil] using hshape.symm)
      obtain ⟨rest'', hops', hshape', hseen'⟩ := ih (hshape ▸ hrest) hne' h
      exact ⟨rest'', hops', hshape'.trans hshape, congrArg _ hseen'⟩

/-- The watermarks of a run that ends: the first operator behind the source has seen those that
the source sends. -/
theorem seen_of_runPulls {op : SourcePhysicalOperator U} {rest : Chain U}
    (hrest : .source ∉ shapes rest) (hne : rest ≠ [])
    (h : (runPulls mode fuel (.source op :: rest) reads).isSome = true) :
    seen 1 (trace mode fuel (.source op :: rest) reads) =
      sent (op.runToClose (pullCount mode fuel (.source op :: rest) reads)) := by
  obtain ⟨r, hr⟩ := Option.isSome_iff_exists.mp h
  obtain ⟨ops', hops, hr⟩ := Option.bind_eq_some_iff.mp hr
  obtain ⟨s, hs, hr⟩ := Option.bind_eq_some_iff.mp hr
  obtain ⟨rest', rfl, hshape, hseen⟩ := pulls_source hrest hne hops
  have hrest' : .source ∉ shapes rest' := hshape ▸ hrest
  have hne' : rest' ≠ [] := fun hnil => hne (by simpa [shapes, hnil] using hshape.symm)
  generalize hsource : (op.executeTimes (pullCount mode fuel (.source op :: rest) reads)).1 =
    source at hs
  have hclose : seen 1 (Chain.closeTraceFrom fuel (rest'.length + 1) 0 (.source source :: rest')) =
      sent source.close.2 := by
    obtain ⟨t, ht, -⟩ := Option.bind_eq_some_iff.mp hs
    have hclosed : .source ∉ (shapes t.1).drop 1 := by
      rw [(Chain.closeAt_shape ht).1]
      exact hrest'
    rw [Chain.closeTraceFrom, seen_append, Chain.seen_of_closeAt hrest' hne' ht, ht]
    show _ ++ seen 1 (Chain.closeTraceFrom fuel _ 1 t.1) = _
    rw [Chain.seen_closeTraceFrom hclosed, List.append_nil]
  unfold trace
  rw [seen_append, seen_append, seen_append, seen_walk 1 rfl, seen_walk 1 rfl, hseen, hops, hsource]
  show _ ++ seen 1 (Chain.closeTraceFrom fuel (rest'.length + 1) 0 _ ++ _) = _
  rw [hs, seen_append, hclose, seen_walk 1 rfl, List.nil_append, List.nil_append, List.append_nil,
    SourcePhysicalOperator.runToClose, sent_append, hsource]

end Pipeline

/-! ## The pipelines of a chain -/

namespace ExecutionGraph

open Chain (shapes)

variable {U : Type}

/-- The source stays in the first pipeline. -/
theorem pipelines_sourceless (n : Nat) (acc : Chain U) {ops : Chain U}
    (hops : .source ∉ shapes ops) : ∃ before others,
      pipelines n acc ops = (acc ++ before) :: others ∧ .source ∉ shapes before ∧
        ∀ p ∈ others, .source ∉ shapes p := by
  induction ops generalizing n acc with
  | nil => exact ⟨[], [], by simp [pipelines], by simp [shapes], List.forall_mem_nil _⟩
  | cons op rest ih =>
    obtain ⟨hsource, hrest⟩ : op.shape ≠ .source ∧ .source ∉ shapes rest :=
      ⟨fun h => hops (h ▸ List.mem_cons_self), fun h => hops (List.mem_cons_of_mem _ h)⟩
    unfold pipelines
    split
    · obtain ⟨before, others, heq, hbefore, hothers⟩ := ih (n + 1) [.channelSource ⟨n, false⟩] hrest
      refine ⟨[op.setOutputChannel n], _, rfl, ?_, ?_⟩
      · cases op with
        | source op => exact absurd rfl hsource
        | _ => simp [shapes, PhysicalOperator.setOutputChannel, PhysicalOperator.shape]
      · rw [heq]
        refine List.forall_mem_cons.mpr ⟨?_, hothers⟩
        simpa [shapes, PhysicalOperator.shape] using hbefore
    · obtain ⟨before, others, heq, hbefore, hothers⟩ := ih n (acc ++ [op]) hrest
      refine ⟨op :: before, others, by rw [heq, List.append_assoc]; rfl, fun h => ?_, hothers⟩
      rcases List.mem_cons.mp h with h | h
      · exact hsource h.symm
      · exact hbefore h

theorem pipelines_first (n : Nat) (acc : Chain U) (op : PhysicalOperator U) (ops : Chain U) :
    ∃ first others, pipelines n acc (op :: ops) = first :: others ∧
      acc.length + 1 ≤ first.length := by
  unfold pipelines
  split
  · exact ⟨_, _, rfl, by simp⟩
  · obtain ⟨rest, hrest⟩ := pipelines_head n (acc ++ [op]) ops
    cases h : pipelines n (acc ++ [op]) ops with
    | nil =>
      rw [h] at hrest
      cases hrest
    | cons first others =>
      rw [h] at hrest
      cases hrest
      exact ⟨_, _, rfl, by simp⟩

/-- Behind the first window there is a pipeline with an operator behind its channel source. The
first pipeline has the window. -/
theorem pipelines_behind (n : Nat) (acc : Chain U) {ops : Chain U}
    (hops : ∃ op ∈ ops, op.isWindow = true) (last : PhysicalOperator U) :
    ∃ first second others, pipelines n acc (ops ++ [last]) = first :: second :: others ∧
      acc.length < first.length ∧ 2 ≤ second.length := by
  induction ops generalizing acc with
  | nil =>
    obtain ⟨op, hop, -⟩ := hops
    cases hop
  | cons op rest ih =>
    rw [List.cons_append, pipelines]
    split
    · have hne : rest ++ [last] ≠ [] := by simp
      obtain ⟨x, xs, hx⟩ := List.exists_cons_of_ne_nil hne
      obtain ⟨second, others, heq, hlen⟩ := pipelines_first (n + 1) [.channelSource ⟨n, false⟩] x xs
      rw [hx, heq]
      exact ⟨_, second, others, rfl, by simp, hlen⟩
    · rename_i hop
      obtain ⟨op', hop', hwindow⟩ := hops
      rcases List.mem_cons.mp hop' with rfl | hop'
      · exact absurd hwindow hop
      · obtain ⟨first, second, others, heq, hfirst, hsecond⟩ := ih (acc ++ [op]) ⟨op', hop', hwindow⟩
        rw [List.length_append, List.length_singleton] at hfirst
        exact ⟨first, second, others, heq, by omega, hsecond⟩

end ExecutionGraph

/-! ## A linear graph -/

/-- How a pipeline is run: `run()` or `run(n)`, with its pulls. -/
structure Execution where
  mode : Pipeline.Mode
  fuel : Nat
  reads : List (Option (Event Record))

namespace Execution

variable {U : Type}

def trace (x : Execution) (ops : Chain U) : Trace := Pipeline.trace x.mode x.fuel ops x.reads

/-- The run comes to its end. -/
def Ends (x : Execution) (ops : Chain U) : Prop :=
  (Pipeline.runPulls x.mode x.fuel ops x.reads).isSome = true

/-- The number of times that the root is executed. -/
def pullCount (x : Execution) (ops : Chain U) : Nat :=
  Pipeline.pullCount x.mode x.fuel ops x.reads

/-- The watermarks that the root passes to its `next_`. -/
def sends (x : Execution) (ops : Chain U) : List Watermark := seen 1 (x.trace ops)

end Execution

/-- The watermarks are passed to every operator behind the root, each once and in order. -/
def Flows {U : Type} (wms : List Watermark) (x : Execution) (ops : Chain U) : Prop :=
  ∀ i, 0 < i → i < ops.length → seen i (x.trace ops) = wms

instance {U : Type} (x : Execution) (ops : Chain U) : Decidable (x.Ends ops) :=
  inferInstanceAs (Decidable (_ = true))

section

open Chain (shapes)

variable {U : Type} {ops : Chain U} {ss : List Shape}

/-- A source that sends nothing. -/
theorem flows_of_nil (hops : shapes ops = .source :: ss) (hss : .source ∉ ss) {x : Execution}
    (hnil : x.sends ops = []) : Flows [] x ops := by
  intro i hi _
  obtain ⟨i, rfl⟩ := Nat.exists_eq_add_one_of_ne_zero (Nat.ne_of_gt hi)
  refine (Pipeline.trace_carries hops hss i).trans ?_
  rw [show seen 1 (Pipeline.trace x.mode x.fuel ops x.reads) = [] from hnil]
  split <;> rfl

/-- Behind a source, when some operator is not reached. -/
theorem flows_iff (hops : shapes ops = .source :: ss) (hss : .source ∉ ss) {k : Nat}
    (hk : k < ss.length) (hreach : reaches ss k = false) (x : Execution) :
    Flows (x.sends ops) x ops ↔ x.sends ops = [] := by
  have hlen : ops.length = ss.length + 1 := by
    simpa [shapes] using congrArg List.length hops
  constructor
  · intro hflows
    have hseen := @Pipeline.trace_carries U x.mode x.fuel ops x.reads ss hops hss k
    rw [hreach] at hseen
    exact (hflows (k + 1) (Nat.succ_pos k) (by omega)).symm.trans hseen
  · intro hnil
    rw [hnil]
    exact flows_of_nil hops hss hnil

/-- In a run that ends, the source has sent no watermark iff every event it has pulled is below the
lateness. -/
theorem sends_eq_nil_iff {source : SourceLogicalOperator U} {rest : Chain U}
    (hrest : .source ∉ shapes rest) (hne : rest ≠ []) {x : Execution}
    (hx : x.Ends (source.compile :: rest)) : x.sends (source.compile :: rest) = [] ↔
      ∀ e ∈ SourcePhysicalOperator.pulled source.func (x.pullCount (source.compile :: rest))
        source.captured, e.timestamp < source.allowedLateness := by
  rw [Execution.sends, Execution.trace, SourceLogicalOperator.compile,
    Pipeline.seen_of_runPulls hrest hne hx]
  exact SourcePhysicalOperator.sent_eq_nil_iff

end

/-- **Watermarks flow through a linear graph** with a window before the sink, in one chain or split
at the windows, iff the source sends none: iff each event that it pulls in a run that ends is below
the lateness. -/
theorem watermarks_flow_iff {U : Type} {g : DataflowGraph U} {source : SourceLogicalOperator U}
    {transforms : List (LogicalImpl U)} {window : WindowLogicalOperator U}
    {sink : SinkLogicalOperator U} (hg : g.IsLinear source (transforms ++ [.window window]) sink)
    {keys : List OperatorId} (hkeys : keys.Perm g.inDegreeKeys) {fuel : Nat}
    (hfuel : transforms.length + 3 ≤ fuel) : ∃ ops first others,
      Pipeline.ofGraph fuel keys g = some ops ∧
      ExecutionGraph.build fuel keys g = some (first :: others) ∧
      (∀ x : Execution, (Flows (x.sends ops) x ops ↔ x.sends ops = []) ∧
        (x.Ends ops → (x.sends ops = [] ↔
          ∀ e ∈ SourcePhysicalOperator.pulled source.func (x.pullCount ops) source.captured,
            e.timestamp < source.allowedLateness))) ∧
      ∀ (x : Execution) (xs : Nat → Execution),
        (Flows (x.sends first) x first ∧
          (∀ i p, others[i]? = some p → Flows (x.sends first) (xs i) p) ↔ x.sends first = []) ∧
        (x.Ends first → (x.sends first = [] ↔
          ∀ e ∈ SourcePhysicalOperator.pulled source.func (x.pullCount first) source.captured,
            e.timestamp < source.allowedLateness)) := by
  have htransforms := isTransform_compileTransforms hg.transforms
  have hsplit : compileTransforms (transforms ++ [.window window]) =
      compileTransforms transforms ++ [window.compile] := List.filterMap_append
  have hshape : window.compile.shape = .window none := by
    unfold WindowLogicalOperator.compile
    cases window.spec.type <;> rfl
  have hlen : (transforms ++ [LogicalImpl.window window]).length + 2 ≤ fuel := by simpa using hfuel
  have hofGraph := hg.ofGraph_eq hkeys hlen
  have hbuild := hg.build_eq hkeys hlen
  generalize compileTransforms (transforms ++ [LogicalImpl.window window]) = mid at *
  have hmem : window.compile ∈ mid := by simp [hsplit]
  have hsource : Shape.source ∉ Chain.shapes (mid ++ [sink.compile]) := by
    intro h
    obtain ⟨op, hop, heq⟩ := List.mem_map.mp h
    rcases List.mem_append.mp hop with hop | hop
    · rcases htransforms op hop with h' | h' | h' <;> cases heq.symm.trans h'
    · obtain rfl := List.mem_singleton.mp hop
      cases heq
  obtain ⟨before, others, heq, hbefore, hothers⟩ :=
    ExecutionGraph.pipelines_sourceless 0 [source.compile] hsource
  obtain ⟨first, second, rest, heq', hfirst, hsecond⟩ := ExecutionGraph.pipelines_behind 0
    [source.compile] ⟨_, hmem, PhysicalOperator.isWindow_of_shape hshape⟩ sink.compile
  obtain ⟨rfl, rfl⟩ := List.cons.inj (heq'.symm.trans heq)
  rw [heq] at hbuild
  refine ⟨_, _, _, hofGraph, hbuild, fun x => ⟨?_, ?_⟩, fun x xs => ⟨?_, ?_⟩⟩
  · -- the window stands before the sink
    have hreach : reaches (Chain.shapes (mid ++ [sink.compile])) mid.length = false := by
      rw [Bool.eq_false_iff, Ne, reaches_iff]
      rintro ⟨-, hall⟩
      have hw := hall window.compile.shape (by
        rw [Chain.shapes, List.map_append, List.take_left' (List.length_map _)]
        exact List.mem_map_of_mem hmem)
      rw [hshape] at hw
      cases hw
    exact flows_iff rfl hsource (by simp [Chain.shapes]) hreach x
  · exact sends_eq_nil_iff hsource (by simp)
  · -- the second pipeline has an operator, and no watermark comes out of its channel
    have hquiet : ∀ i p, (second :: rest)[i]? = some p → ∀ j, seen j ((xs i).trace p) = [] :=
      fun i p hp j => Pipeline.seen_trace (hothers p (List.mem_of_getElem? hp)) j
    constructor
    · rintro ⟨-, hflows⟩
      have hsent := hflows 0 second rfl 1 Nat.one_pos hsecond
      rw [← hsent]
      exact hquiet 0 second rfl 1
    · intro hnil
      rw [hnil]
      exact ⟨flows_of_nil rfl hbefore hnil, fun i p hp j _ _ => hquiet i p hp j⟩
  · refine sends_eq_nil_iff hbefore fun hnil => ?_
    rw [hnil] at hfirst
    exact absurd hfirst (Nat.lt_irrefl 1)

/-- Two windows behind each other, in a run over the events 3 and 7. -/
theorem watermarks_flow_iff_twoWindows : ∃ ops,
    Pipeline.ofGraph 4 twoWindows.inDegreeKeys twoWindows = some ops ∧
    ∀ x : Execution, x.Ends ops → (Flows (x.sends ops) x ops ↔
      ∀ e ∈ SourcePhysicalOperator.pulled (fun u : List (Event Record) => (u.head?, u.tail))
        (x.pullCount ops) [eventAt 3, eventAt 7], e.timestamp < 0) := by
  obtain ⟨ops, -, -, hops, -, hflows, -⟩ := @watermarks_flow_iff _ twoWindows _
    [.window ⟨timeTumblingWindow 5, fun u es => (es.headD (eventAt 0), u), []⟩] _ _
    twoWindows_isLinear _ (List.Perm.refl twoWindows.inDegreeKeys) 4 (by decide)
  exact ⟨ops, hops, fun x hx => (hflows x).1.trans ((hflows x).2 hx)⟩

/-- A watermark is lost in the first window: the second one never sees the watermarks 3 and 7
that the source sends, neither in the chain nor behind the channel. -/
theorem watermarks_lost : ∃ ops first others,
    Pipeline.ofGraph 4 twoWindows.inDegreeKeys twoWindows = some ops ∧
    ExecutionGraph.build 4 twoWindows.inDegreeKeys twoWindows = some (first :: others) ∧
    (∃ x : Execution, x.Ends ops ∧ x.sends ops = [⟨3, 0⟩, ⟨7, 0⟩] ∧ seen 2 (x.trace ops) = [] ∧
      ¬ Flows (x.sends ops) x ops) ∧
    ∃ x : Execution, x.Ends first ∧ x.sends first = [⟨3, 0⟩, ⟨7, 0⟩] ∧
      ∃ p ∈ others, 1 < p.length ∧ ∀ x' : Execution, ¬ Flows (x.sends first) x' p := by
  refine ⟨_, _, _, rfl, rfl, ⟨⟨.untilDone, 10, [none, none, none]⟩, by decide +kernel,
    by decide +kernel, by decide +kernel, fun h => ?_⟩, ⟨.untilDone, 10, [none, none, none]⟩,
    by decide +kernel, by decide +kernel, _, List.mem_cons_self, by decide, fun x' h => ?_⟩
  · have h2 := h 2 (by decide) (by decide)
    revert h2
    decide +kernel
  · have h1 := h 1 (by decide) (by decide)
    rw [Execution.trace, Pipeline.seen_trace (by decide)] at h1
    revert h1
    decide +kernel

end Xtream
