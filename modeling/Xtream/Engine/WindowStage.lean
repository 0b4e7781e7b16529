import Xtream.Engine.Roots
import Xtream.Window.Run

/-!
# The stage of a time window

* `stage_timeWindow`: the calls of a time window in a chain are those of its run to `close`;
* `run_source_firings`: the firings of a pipeline with a source.
-/

namespace Xtream

/-- The firing of a call. -/
def Output.firing? : Output → Option Firing
  | .fire f => some f
  | _ => none

/-- The firings of the calls, in order. -/
def firings (outs : List Output) : List Firing := outs.filterMap Output.firing?

@[simp] theorem firings_nil : firings [] = [] := rfl

@[simp] theorem firings_append (os os' : List Output) :
    firings (os ++ os') = firings os ++ firings os' := List.filterMap_append

/-- The elements sent on are no firings. -/
theorem firings_filter_next (outs : List Output) :
    firings (outs.filter fun o => o.next?.isNone) = firings outs := by
  induction outs with
  | nil => rfl
  | cons o outs ih =>
    cases o with
    | fire f => exact congrArg (f :: ·) ih
    | _ => exact ih

namespace TimeWindowPhysicalOperator

variable {U : Type}

theorem firings_emit (oc : Option ChannelId) (e : Event Record) : firings (emit oc e) = [] := by
  cases oc <;> rfl

theorem nexts_emit_none (e : Event Record) : nexts (emit none e) = [.event e] := rfl

@[simp] theorem outputs_nil (op : TimeWindowPhysicalOperator U) : op.outputs [] = [] := rfl

theorem outputs_cons (op : TimeWindowPhysicalOperator U) (f : Firing) (fs : List Firing) :
    op.outputs (f :: fs) = .fire f :: (emit op.outputChannel f.result ++ op.outputs fs) := rfl

theorem outputs_append (op : TimeWindowPhysicalOperator U) (fs gs : List Firing) :
    op.outputs (fs ++ gs) = op.outputs fs ++ op.outputs gs := List.flatMap_append

theorem outputs_congr {op op' : TimeWindowPhysicalOperator U}
    (h : op'.outputChannel = op.outputChannel) (fs : List Firing) :
    op'.outputs fs = op.outputs fs := by
  unfold outputs
  rw [h]

@[simp] theorem firings_outputs (op : TimeWindowPhysicalOperator U) (fs : List Firing) :
    firings (op.outputs fs) = fs := by
  induction fs with
  | nil => rfl
  | cons f fs ih =>
    rw [outputs_cons]
    show f :: firings (emit op.outputChannel f.result ++ op.outputs fs) = _
    rw [firings_append, firings_emit, ih, List.nil_append]

/-- Without an output channel the results go to `next_`. -/
theorem nexts_outputs {op : TimeWindowPhysicalOperator U} (h : op.outputChannel = none)
    (fs : List Firing) : nexts (op.outputs fs) = fs.map fun f => .event f.result := by
  induction fs with
  | nil => rfl
  | cons f fs ih =>
    rw [outputs_cons, h]
    show nexts (emit none f.result ++ op.outputs fs) = _
    rw [nexts_append, nexts_emit_none, ih]
    rfl

end TimeWindowPhysicalOperator

namespace PhysicalOperator

variable {U : Type}

open TimeWindowPhysicalOperator (consumeAll runToClose outputs_append outputs_congr
  consume_outputChannel)

/-- The elements through a time window. -/
theorem feed_timeWindow (fuel : Nat) (op : TimeWindowPhysicalOperator U)
    (xs : List StreamElement) : (timeWindow op).feed fuel xs =
      (op.consumeAll fuel xs).map fun r => (timeWindow r.1, op.outputs r.2.flatten) := by
  induction xs generalizing op with
  | nil => rfl
  | cons x xs ih =>
    show ((timeWindow op).execute fuel true none x).bind _ = ((op.consume fuel x).bind _).map _
    show (((op.consume fuel x).bind _).map _).bind _ = _
    cases hs : op.consume fuel x with
    | none => rfl
    | some s =>
      show (feed fuel (timeWindow s.1) xs).bind _ = ((s.1.consumeAll fuel xs).bind _).map _
      rw [ih]
      cases s.1.consumeAll fuel xs with
      | none => rfl
      | some r =>
        simp [outputs_append, outputs_congr (consume_outputChannel hs)]

theorem consumeAll_outputChannel {fuel : Nat} {op : TimeWindowPhysicalOperator U}
    {xs : List StreamElement} {r : TimeWindowPhysicalOperator U × List (List Firing)}
    (h : op.consumeAll fuel xs = some r) : r.1.outputChannel = op.outputChannel := by
  induction xs generalizing op r with
  | nil =>
    cases h
    rfl
  | cons x xs ih =>
    obtain ⟨s, hs, h⟩ := Option.bind_eq_some_iff.mp h
    obtain ⟨t, ht, h⟩ := Option.bind_eq_some_iff.mp h
    cases h
    exact (ih ht).trans (consume_outputChannel hs)

/-- The calls of a time window: its firings, each with the result sent on, and the close of its
output channel. -/
theorem stage_timeWindow (fuel : Nat) (op : TimeWindowPhysicalOperator U)
    (xs : List StreamElement) : (timeWindow op).stage fuel xs =
      (op.runToClose fuel xs).map fun tr =>
        op.outputs tr.flatten ++ op.outputChannel.toList.map .closeChannel := by
  unfold stage
  rw [feed_timeWindow]
  show _ = ((op.consumeAll fuel xs).bind _).map _
  cases hr : op.consumeAll fuel xs with
  | none => rfl
  | some r =>
    have hoc := consumeAll_outputChannel hr
    show (((r.1.flush fuel).bind _).map _).bind _ = ((r.1.flush fuel).bind _).map _
    cases r.1.flush fuel with
    | none => rfl
    | some s => simp [outputs_append, outputs_congr hoc, hoc]

end PhysicalOperator

namespace Chain

variable {U : Type}

/-- The firings of a chain of one time window. -/
theorem runChain_timeWindow (fuel : Nat) (op : TimeWindowPhysicalOperator U)
    (xs : List StreamElement) : (runChain fuel [.timeWindow op] xs).map firings =
      (op.runToClose fuel xs).map List.flatten := by
  rw [runChain_singleton fuel rfl, PhysicalOperator.stage_timeWindow, Option.map_map,
    Option.map_map]
  refine congrArg (fun f => Option.map f _) (funext fun tr => ?_)
  have hclose : firings (op.outputChannel.toList.map .closeChannel) = [] := by
    cases op.outputChannel <;> rfl
  show firings (List.filter _ (op.outputs tr.flatten ++ _)) = _
  rw [firings_filter_next, firings_append, TimeWindowPhysicalOperator.firings_outputs, hclose,
    List.append_nil]

end Chain

namespace Pipeline

variable {U : Type}

/-- The firings of a pipeline with a source are those of the chain behind it, on the elements
of the source. -/
theorem run_source_firings {fuel : Nat} {func : U → Option (Event Record) × U} {captured : U}
    {es : List (Event Record)} (hes : SourcePhysicalOperator.Yields func captured es)
    (hfuel : es.length + 1 ≤ fuel) (lateness interval : UInt64) (rest : Chain U)
    (chs : Channels) :
    (run fuel (.source (.create func captured lateness interval) :: rest) chs).map
      (fun r => firings r.2.2) = (Chain.runChain fuel rest (elements
        ((SourcePhysicalOperator.create func captured lateness interval).runToClose
          (es.length + 1)))).map firings := by
  have h := congrArg (Option.map fun r => firings r.2) (@run_source U fuel
    (.create func captured lateness interval) es rfl hes hfuel rest chs)
  rwa [Option.map_map, Option.map_map] at h

end Pipeline

end Xtream
