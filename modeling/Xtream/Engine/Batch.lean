import Xtream.Engine.Transform
import Xtream.Source.LastWatermark
import Xtream.Window.Refinement

/-!
# Streaming and batch

When no event is more than the lateness behind the maximum, every event reaches the time window
before a watermark above it. The window's calls are then those that evaluate all windows over the
surviving events at once.

* `inTime_schedule`: what the source sends is in time;
* `Fires.batch`: a time window that meets its specification evaluates the batch of what it is fed;
* `flushWraps_pass`: when the flush wraps, from the events of the source;
* `streams_iff`: a pipeline of a source, maps and filters and a time window evaluates the batch of
  the surviving events, iff the flush does not wrap to a window with an event.
-/

namespace Xtream

open SlidingWindow
open SourcePhysicalOperator (schedule attemptAfter attempted period)

/-! ## Elements in time -/

/-- A window sees all of its events before it fires. -/
theorem content_executedBefore {size stop : Nat} {xs : List StreamElement} (h : InTime xs)
    (started : Bool) : content time size stop (executedBefore stop started xs) =
      content time size stop (events xs) := by
  induction xs generalizing started with
  | nil => rfl
  | cons x xs ih =>
    obtain ⟨hx, hxs⟩ := List.pairwise_cons.mp h
    cases x with
    | event e =>
      rw [executedBefore_event, events_cons_event]
      unfold content at ih ⊢
      rw [List.filter_cons, List.filter_cons, ih hxs]
    | watermark wm =>
      rw [events_cons_watermark]
      by_cases hfire : started = true ∧ stop ≤ wm.timestamp.toNat
      · -- the events behind the watermark are not before the end of the window
        rw [hfire.1, executedBefore_of_le hfire.2, eq_comm]
        unfold content
        rw [List.filter_nil, List.filter_eq_nil_iff]
        intro e he hcov
        rw [decide_eq_true_iff, covers_iff] at hcov
        have hle := hx _ (mem_events.mp he) wm e rfl rfl
        rw [UInt64.le_iff_toNat_le] at hle
        have : time e = e.timestamp.toNat := rfl
        omega
      · have hskip : executedBefore stop started (.watermark wm :: xs) =
            executedBefore stop started xs := by
          unfold executedBefore
          rw [firingStep, if_neg hfire]
          rfl
        rw [hskip, ih hxs]

/-- No event is more than the lateness behind the maximum of the events before it. -/
def BoundedDisorder (lateness : UInt64) (es : List (Event Record)) : Prop :=
  ∀ before e after, es = before ++ e :: after → maxTime before ≤ time e + lateness.toNat

/-- What the source sends is in time. -/
theorem inTime_schedule {lateness interval sourceId : UInt64} {history es : List (Event Record)}
    (h : BoundedDisorder lateness (history ++ es)) :
    InTime (elements (schedule lateness interval sourceId history es)) := by
  induction es generalizing history with
  | nil =>
    unfold schedule
    split
    · exact List.Pairwise.nil
    · cases attemptAfter lateness interval sourceId history with
      | none => exact List.Pairwise.nil
      | some wm => exact List.pairwise_singleton _ _
  | cons e es ih =>
    have hrest := @ih (history ++ [e]) (by simpa using h)
    unfold schedule
    rw [elements_forward]
    refine List.pairwise_cons.mpr ⟨fun _ _ _ _ hwm => (by cases hwm), ?_⟩
    rw [elements_append]
    split
    · cases hw : attemptAfter lateness interval sourceId (history ++ [e]) with
      | none => exact hrest
      | some wm =>
        refine List.pairwise_cons.mpr ⟨fun y hy wm' e' hwm he => ?_, hrest⟩
        cases hwm
        subst he
        have hmem : e' ∈ events (elements
            (schedule lateness interval sourceId (history ++ [e]) es)) := mem_events.mpr hy
        rw [events_elements, SourcePhysicalOperator.forwarded_schedule] at hmem
        obtain ⟨mid, after, rfl⟩ := List.append_of_mem hmem
        have hle := h (history ++ e :: mid) e' after (by simp)
        have hmono : maxTime (history ++ [e]) ≤ maxTime (history ++ e :: mid) :=
          SourcePhysicalOperator.maxTime_mono ⟨mid, by simp⟩
        have hts := (SourcePhysicalOperator.watermarkAfter_eq_some hw).1
        rw [UInt64.le_iff_toNat_le]
        have : time e' = e'.timestamp.toNat := rfl
        omega
    · exact hrest

namespace TimeWindowPhysicalOperator

variable {U : Type}

/-- On elements in time a run that meets the specification evaluates the batch. -/
theorem Fires.batch {spec : WindowSpec} {func : U → List (Event Record) → Event Record × U}
    {captured : U} {outputChannel : Option ChannelId} {xs : List StreamElement}
    {tr : List (List Firing)} (h : Fires (create spec func captured outputChannel) [] xs tr)
    (hlen : tr.length = xs.length + 1) (hin : InTime xs) :
    Batch time spec.size.toNat spec.advance.toNat (events xs) (tr.flatten.map Firing.call) ∧
      ∀ f ∈ tr.flatten, SortedByTime f.events := by
  have hfired : ∀ f ∈ tr.flatten, (∃ j, f.windowEnd.toNat = (j + 1) * spec.advance.toNat) ∧
      f.events.Perm (content time spec.size.toNat f.windowEnd.toNat (events xs)) ∧
      SortedByTime f.events ∧ f.events ≠ [] := by
    intro f hf
    obtain ⟨fs, hfs, hff⟩ := List.mem_flatten.mp hf
    obtain ⟨i, hi, rfl⟩ := List.mem_iff_getElem.mp hfs
    obtain ⟨⟨j, hj⟩, rfl, hperm, hsorted, hne⟩ := h.sound i _ (List.getElem?_eq_getElem hi) f hff
    refine ⟨⟨j, by rw [hj, create_endAt]⟩, ?_, hsorted, hne⟩
    rw [← content_executedBefore hin false]
    rw [List.nil_append] at hperm
    exact hperm
  refine ⟨⟨fun c hc => ?_, fun k hk hne => ?_, ?_⟩, fun f hf => (hfired f hf).2.2.1⟩
  · obtain ⟨f, hf, rfl⟩ := List.mem_map.mp hc
    obtain ⟨⟨j, hj⟩, hperm, -, hne⟩ := hfired f hf
    exact ⟨⟨j + 1, by omega, hj⟩, hperm, hne⟩
  · obtain ⟨j, rfl⟩ := Nat.exists_eq_add_of_le' hk
    rw [← create_endAt spec func captured outputChannel,
      ← content_executedBefore hin false] at hne
    have hstep := firingStep_le ((create spec func captured outputChannel).endAt j)
      (create spec func captured outputChannel).windowInitialized xs
    obtain ⟨fs, hfs, f, hf, hE⟩ := h.complete j (by omega) hne
    refine ⟨f.call, List.mem_map_of_mem (List.mem_flatten.mpr ⟨fs, List.mem_of_getElem? hfs, hf⟩), ?_⟩
    rw [create_endAt] at hE
    exact hE
  · have := h.increasing
    rwa [List.map_map]

end TimeWindowPhysicalOperator

/-! ## The last watermark of the input -/

theorem reach_watermark (started : Bool) (wm : Watermark) (xs : List StreamElement) :
    reach started (.watermark wm :: xs) =
      if started then max wm.timestamp.toNat (reach started xs) else reach started xs := rfl

theorem reach_append (started : Bool) (xs ys : List StreamElement) :
    reach started (xs ++ ys) = max (reach started xs) (reach (startedAfter started xs) ys) := by
  induction xs generalizing started with
  | nil => simp [reach, startedAfter]
  | cons x xs ih =>
    cases x with
    | event e =>
      show reach true (xs ++ ys) = max (reach true xs) _
      rw [ih]
      simp [startedAfter]
    | watermark wm =>
      have hs : startedAfter started (.watermark wm :: xs) = startedAfter started xs := rfl
      rw [List.cons_append, reach_watermark, reach_watermark, ih, hs]
      split
      · rw [Nat.max_assoc]
      · rfl

/-- Watermarks before the first event do not count. -/
theorem reach_of_events_nil {xs : List StreamElement} (h : events xs = []) :
    reach false xs = 0 := by
  induction xs with
  | nil => rfl
  | cons x xs ih =>
    cases x with
    | event e => cases h
    | watermark wm => exact ih h

theorem reach_of_watermarks_nil {xs : List StreamElement} (h : watermarks xs = [])
    (started : Bool) : reach started xs = 0 :=
  Nat.le_zero.mp (reach_le fun wm hwm => (by rw [h] at hwm; cases hwm))

theorem sinceWatermark_of_watermarks_nil {xs : List StreamElement} (h : watermarks xs = [])
    (recent : List (Event Record)) : sinceWatermark recent xs = recent ++ events xs := by
  induction xs generalizing recent with
  | nil => simp [sinceWatermark]
  | cons x xs ih =>
    cases x with
    | event e => simp [sinceWatermark, ih h]
    | watermark wm => cases h

/-- Elements with a last and largest watermark. -/
theorem reach_of_last {xs ys : List StreamElement} {wm : Watermark} (hys : watermarks ys = [])
    (hmax : ∀ wm' ∈ watermarks xs, wm'.timestamp ≤ wm.timestamp) :
    reach false (xs ++ .watermark wm :: ys) =
      if events xs = [] then 0 else wm.timestamp.toNat := by
  rw [reach_append, reach_watermark, reach_of_watermarks_nil hys]
  by_cases h : events xs = []
  · rw [reach_of_events_nil h]
    simp [startedAfter, h]
  · have hle : reach false xs ≤ wm.timestamp.toNat :=
      reach_le fun wm' hwm' => UInt64.le_iff_toNat_le.mp (hmax wm' hwm')
    simp [startedAfter, h, hle]

/-- An event after the last watermark is not below it, when the elements are in time. -/
theorem InTime.reach_le_time {xs : List StreamElement} (h : InTime xs) {started : Bool}
    {recent : List (Event Record)} {e : Event Record} (he : e ∈ sinceWatermark recent xs) :
    (watermarks xs = [] ∧ e ∈ recent) ∨ (e ∈ events xs ∧ reach started xs ≤ time e) := by
  induction xs generalizing recent started with
  | nil => exact Or.inl ⟨rfl, he⟩
  | cons x xs ih =>
    obtain ⟨hx, hxs⟩ := List.pairwise_cons.mp h
    cases x with
    | event e' =>
      rcases @ih hxs true _ he with ⟨hnil, hmem⟩ | ⟨hmem, hle⟩
      · rcases List.mem_append.mp hmem with hmem | hmem
        · exact Or.inl ⟨hnil, hmem⟩
        · refine Or.inr ⟨?_, ?_⟩
          · rw [List.mem_singleton.mp hmem]
            exact List.mem_cons_self
          · unfold reach
            rw [reach_of_watermarks_nil hnil]
            exact Nat.zero_le _
      · exact Or.inr ⟨List.mem_cons_of_mem _ hmem, hle⟩
    | watermark wm =>
      rcases @ih hxs started _ he with ⟨-, hmem⟩ | ⟨hmem, hle⟩
      · cases hmem
      · refine Or.inr ⟨hmem, ?_⟩
        have hwm := hx _ (mem_events.mp hmem) wm e rfl rfl
        rw [reach_watermark]
        split
        · exact Nat.max_le.mpr ⟨UInt64.le_iff_toNat_le.mp hwm, hle⟩
        · exact hle

/-! ## The pipeline -/

section

variable {U : Type}

/-- The first step of the flush wraps, and the flush goes on to a window with an event: with the
survivors before and after the last watermark of the source, `early` and `late`. -/
def BatchWraps (spec : WindowSpec) (lateness interval : UInt64) (ops : Chain U)
    (es : List (Event Record)) : Prop :=
  let early := ops.survivors (es.take (SourcePhysicalOperator.settled lateness interval es))
  let late := (ops.survivors es).drop early.length
  let last := if early = [] then 0 else maxTime es - lateness.toNat
  let stop := nextEnd spec.advance.toNat last + spec.advance.toNat
  2 ^ 64 ≤ stop ∧ ∃ e ∈ late, ∃ j,
    Covers spec.size.toNat (stop - 2 ^ 64 + j * spec.advance.toNat) (time e)

/-- When the flush wraps, from the events of the source. -/
theorem flushWraps_pass (spec : WindowSpec) (lateness interval sourceId : UInt64) (ops : Chain U)
    (es : List (Event Record)) :
    TimeWindowPhysicalOperator.FlushWraps spec
      (ops.pass (elements (schedule lateness interval sourceId [] es))).2 ↔
        BatchWraps spec lateness interval ops es := by
  have hinput : reach false (ops.pass (elements (schedule lateness interval sourceId [] es))).2 =
        (if ops.survivors (es.take (SourcePhysicalOperator.settled lateness interval es)) = [] then 0
          else maxTime es - lateness.toNat) ∧
      sinceWatermark [] (ops.pass (elements (schedule lateness interval sourceId [] es))).2 =
        (ops.survivors es).drop (ops.survivors
          (es.take (SourcePhysicalOperator.settled lateness interval es))).length := by
    have hsurvivors := ops.events_pass (elements (schedule lateness interval sourceId [] es))
    rw [events_elements, SourcePhysicalOperator.forwarded_schedule] at hsurvivors
    by_cases hsent : es ≠ [] ∧ lateness.toNat ≤ maxTime es
    · obtain ⟨pre, wm, post, hsplit, hpost, hpre, hts⟩ :=
        @SourcePhysicalOperator.schedule_last lateness interval sourceId es hsent.1 hsent.2
      have helements : elements (schedule lateness interval sourceId [] es) =
          elements pre ++ ([.watermark wm] ++ elements post) := by
        rw [hsplit, elements_append, elements_attempt_some]
        rfl
      have hearly : events (ops.pass (elements pre)).2 =
          ops.survivors (es.take (SourcePhysicalOperator.settled lateness interval es)) := by
        rw [ops.events_pass, events_elements, hpre]
      -- the watermarks before the last one are below it
      have hmax : ∀ wm' ∈ watermarks (ops.pass (elements pre)).2,
          wm'.timestamp ≤ wm.timestamp := by
        intro wm' hwm'
        rw [ops.watermarks_pass, watermarks_elements] at hwm'
        have hinc := @SourcePhysicalOperator.sent_increasing lateness interval sourceId [] es
        rw [hsplit, sent_append, sent_attempt_some] at hinc
        have hlt := (List.pairwise_append.mp hinc).2.2 wm' hwm' wm List.mem_cons_self
        rw [UInt64.le_iff_toNat_le]
        rw [UInt64.lt_iff_toNat_lt] at hlt
        omega
      have hrest : watermarks ((ops.pass (elements pre)).1.pass (elements post)).2 = [] := by
        rw [Chain.watermarks_pass, watermarks_elements, hpost]
      have hpass : (ops.pass (elements (schedule lateness interval sourceId [] es))).2 =
          (ops.pass (elements pre)).2 ++ .watermark wm ::
            ((ops.pass (elements pre)).1.pass (elements post)).2 := by
        rw [helements, Chain.pass_append, Chain.pass_append, Chain.pass_watermark]
        rfl
      rw [hpass, events_append, events_cons_watermark] at hsurvivors
      rw [hpass, reach_of_last hrest hmax, sinceWatermark_append]
      show _ ∧ sinceWatermark [] _ = _
      rw [sinceWatermark_of_watermarks_nil hrest, hearly, ← hsurvivors, hearly, List.drop_left]
      refine ⟨?_, rfl⟩
      rw [← hts, Nat.add_sub_cancel]
    · -- no watermark is sent
      have hnone := @SourcePhysicalOperator.last_sent lateness interval sourceId es
      rw [if_neg hsent, ← watermarks_elements, ← ops.watermarks_pass] at hnone
      have hearly : ops.survivors
          (es.take (SourcePhysicalOperator.settled lateness interval es)) = [] := by
        by_cases hnil : es = []
        · rw [hnil, List.take_nil, Chain.survivors_nil]
        · have hlow : maxTime es < lateness.toNat := by
            by_contra hcon
            exact hsent ⟨hnil, Nat.le_of_not_lt hcon⟩
          rw [SourcePhysicalOperator.settled, if_pos hlow, List.take_zero, Chain.survivors_nil]
      rw [if_pos hearly, hearly, reach_of_watermarks_nil hnone,
        sinceWatermark_of_watermarks_nil hnone, hsurvivors]
      exact ⟨rfl, rfl⟩
  unfold TimeWindowPhysicalOperator.FlushWraps BatchWraps
  rw [hinput.1, hinput.2]

/-- The firings of a pipeline of a source, maps and filters and a time window. -/
theorem run_window_firings {fuel : Nat} {func : U → Option (Event Record) × U} {captured : U}
    {es : List (Event Record)} (hes : SourcePhysicalOperator.Yields func captured es)
    (hfuel : es.length + 1 ≤ fuel) (lateness interval : UInt64) {ops : Chain U}
    (hops : ∀ op ∈ ops, op.isElementwise = true) (op : TimeWindowPhysicalOperator U)
    (chs : Channels) :
    (Pipeline.run fuel (.source (.create func captured lateness interval) ::
      (ops ++ [.timeWindow op])) chs).map (fun r => firings r.2.2) =
        (op.runToClose fuel (ops.pass (elements (schedule lateness interval 0 [] es))).2).map
          List.flatten := by
  rw [Pipeline.run_source_firings hes hfuel, SourcePhysicalOperator.runToClose_eq_schedule hes,
    Chain.runChain_pass hops, Chain.runChain_timeWindow]

/-- A pipeline evaluates the batch of the items: with enough fuel it ends, its calls of the
window function evaluate all windows over the items, each on a vector sorted by time, and an item
is in as many calls as windows cover it. -/
def StreamsAsBatch (ops : Chain U) (chs : Channels) (spec : WindowSpec)
    (items : List (Event Record)) : Prop :=
  ∃ n fs, (∀ fuel, n ≤ fuel → (Pipeline.run fuel ops chs).map (fun r => firings r.2.2) = some fs) ∧
    Batch time spec.size.toNat spec.advance.toNat items (fs.map Firing.call) ∧
    (∀ f ∈ fs, SortedByTime f.events) ∧
    ∀ e, (fs.flatMap Firing.events).count e = items.count e *
      ((time e + spec.size.toNat) / spec.advance.toNat - time e / spec.advance.toNat)

/-- **Streaming is batch** for bounded disorder, iff the flush does not wrap to a window with an
event. -/
theorem streams_iff {func : U → Option (Event Record) × U} {captured : U}
    {es : List (Event Record)} (hes : SourcePhysicalOperator.Yields func captured es)
    {lateness : UInt64} (hdisorder : BoundedDisorder lateness es) (interval : UInt64)
    {ops : Chain U} (hops : ∀ op ∈ ops, op.KeepsTime) {spec : WindowSpec}
    (wfunc : U → List (Event Record) → Event Record × U) (wcaptured : U)
    (hadv : 0 < spec.advance.toNat)
    (hbound : maxTime es + spec.size.toNat + spec.advance.toNat < 2 ^ 64) (chs : Channels) :
    StreamsAsBatch (.source (.create func captured lateness interval) ::
        (ops ++ [.timeWindow (.create spec wfunc wcaptured none)])) chs spec (ops.survivors es) ↔
      ¬ BatchWraps spec lateness interval ops es := by
  have hrun := fun fuel (hfuel : es.length + 1 ≤ fuel) => run_window_firings hes hfuel lateness
    interval (fun op hop => (hops op hop).isElementwise) (.create spec wfunc wcaptured none) chs
  rw [← flushWraps_pass spec lateness interval 0 ops es]
  have hevents : events (ops.pass (elements (schedule lateness interval 0 [] es))).2 =
      ops.survivors es := by
    rw [ops.events_pass, events_elements, SourcePhysicalOperator.forwarded_schedule]
  have hin : InTime (ops.pass (elements (schedule lateness interval 0 [] es))).2 :=
    Chain.inTime_pass hops (inTime_schedule hdisorder)
  have hb : TimeWindowPhysicalOperator.Bounded spec
      (ops.pass (elements (schedule lateness interval 0 [] es))).2 := by
    intro y hy
    obtain ⟨x, hx, hts⟩ := Chain.mem_pass hops hy
    have hle : x.timestamp.toNat ≤ maxTime es := by
      cases x with
      | event e =>
        have hmem := mem_events.mpr hx
        rw [events_elements, SourcePhysicalOperator.forwarded_schedule] at hmem
        exact time_le_maxTime hmem
      | watermark wm =>
        have hmem := mem_watermarks.mpr hx
        rw [watermarks_elements] at hmem
        exact Nat.le_of_add_right_le (SourcePhysicalOperator.timestamp_le hmem)
    rw [hts]
    omega
  obtain ⟨n, tr, hwindow, hlen, ⟨hno, hfires⟩ | ⟨hfw, fs, hfs, f, hf, hlt, e, he, hcov⟩⟩ :=
    TimeWindowPhysicalOperator.runToClose_outcome spec wfunc wcaptured none hadv hb
  · refine iff_of_true ⟨max (es.length + 1) n, tr.flatten, fun fuel hfuel => ?_, ?_⟩ hno
    · rw [hrun fuel (by omega), hwindow fuel (by omega)]
      rfl
    · obtain ⟨hbatch, hsorted⟩ := hfires.batch hlen hin
      rw [hevents] at hbatch
      refine ⟨hbatch, hsorted, fun e => ?_⟩
      rw [← hbatch.count hadv e, List.flatMap_map]
      rfl
  · -- the last calls are for windows that have passed
    refine iff_of_false ?_ (not_not_intro hfw)
    rintro ⟨n', fs', hrun', hbatch, -⟩
    have hsame := hrun' (max (es.length + 1) (max n n')) (by omega)
    rw [hrun _ (by omega), hwindow _ (by omega)] at hsame
    obtain rfl : tr.flatten = fs' := Option.some.inj hsame
    have hmem : f.call ∈ tr.flatten.map Firing.call :=
      List.mem_map_of_mem (List.mem_flatten.mpr ⟨fs, List.mem_of_getElem? hfs, hf⟩)
    obtain ⟨⟨k, -, hk⟩, -⟩ := hbatch.sound _ hmem
    have hpassed : ¬ nextEnd spec.advance.toNat (reach false
        (ops.pass (elements (schedule lateness interval 0 [] es))).2) ≤ k * spec.advance.toNat := by
      rw [← hk]
      exact Nat.not_le_of_lt hlt
    rw [nextEnd_le_iff hadv, ← hk] at hpassed
    have hE : f.call.1 = f.windowEnd.toNat := rfl
    rw [covers_iff] at hcov
    rcases @InTime.reach_le_time _ hin false _ _ he with ⟨-, hnil⟩ | ⟨-, hle⟩
    · cases hnil
    · omega

/-- The events 5, 4 and 3 with a lateness of 2, through a filter that drops the second. -/
theorem streams_small :
    let drop : PhysicalOperator (List (Event Record)) :=
      .filter ⟨fun u e => ((decide (e.timestamp ≠ 4), e), u), []⟩
    StreamsAsBatch (.source (.create (fun u => (u.head?, u.tail))
        [eventAt 5, eventAt 4, eventAt 3] 2 1) :: ([drop] ++
          [.timeWindow (.create (timeWindow 4 2) (fun u es => (es.headD (eventAt 0), u)) [] none)]))
      (fun _ => {}) (timeWindow 4 2)
      (Chain.survivors [drop] [eventAt 5, eventAt 4, eventAt 3]) := by
  intro drop
  have hes : SourcePhysicalOperator.Yields (fun u : List (Event Record) => (u.head?, u.tail))
      [eventAt 5, eventAt 4, eventAt 3] [eventAt 5, eventAt 4, eventAt 3] := ⟨rfl, rfl, rfl, rfl⟩
  have hdisorder : BoundedDisorder 2 [eventAt 5, eventAt 4, eventAt 3] := by
    intro before e after h
    have hle : maxTime before ≤ 5 := by
      have := SourcePhysicalOperator.maxTime_mono (⟨e :: after, h.symm⟩ : before <+: _)
      exact this
    have he : e ∈ [eventAt 5, eventAt 4, eventAt 3] := by simp [h]
    have hall : ∀ e ∈ [eventAt 5, eventAt 4, eventAt 3], 5 ≤ time e + (2 : UInt64).toNat := by decide
    exact hle.trans (hall e he)
  have hops : ∀ op ∈ [drop], op.KeepsTime := by
    intro op hop
    obtain rfl := List.mem_singleton.mp hop
    exact fun _ _ => rfl
  exact (streams_iff hes hdisorder 1 hops _ _ (by decide) (by decide) _).mpr
    fun h => absurd h.1 (by decide)

/-- Two events at `2^62 - 1` with a watermark after each: the second is buffered at `close`, and the
flush steps from the window end `2^63 + 2^61` over 0 to `2^62`, which covers it but is no multiple
of `advance`. -/
theorem wrapping_flush_breaks_batch :
    ∃ (es : List (Event Record)) (lateness interval : UInt64) (spec : WindowSpec),
      BoundedDisorder lateness es ∧ 0 < spec.size.toNat ∧ 0 < spec.advance.toNat ∧
      maxTime es + spec.size.toNat + spec.advance.toNat < 2 ^ 64 ∧
      ¬ StreamsAsBatch [.source (.create (fun u : List (Event Record) => (u.head?, u.tail)) es
            lateness interval),
          .timeWindow (.create spec (fun u es => (es.headD (eventAt 0), u)) [] none)]
        (fun _ => {}) spec es := by
  let e := eventAt 0x3fffffffffffffff
  let spec := timeWindow 0x1000000000000000 0xa000000000000000
  refine ⟨[e, e], 0, 1, spec, ?_, by decide, by decide, by decide, ?_⟩
  · intro before e' after h
    have hle := SourcePhysicalOperator.maxTime_mono (⟨e' :: after, h.symm⟩ : before <+: [e, e])
    obtain rfl : e' = e := by
      have he : e' ∈ [e, e] := by simp [h]
      simpa using he
    exact hle.trans (show maxTime [e, e] ≤ time e + (0 : UInt64).toNat by decide)
  · rintro ⟨n, fs, hrun, hbatch, -⟩
    have hes : SourcePhysicalOperator.Yields (fun u : List (Event Record) => (u.head?, u.tail))
        [e, e] [e, e] := ⟨rfl, rfl, rfl⟩
    have hwindow : (TimeWindowPhysicalOperator.create spec
        (fun (u : List (Event Record)) es => (es.headD (eventAt 0), u)) [] none).runToClose 4
          [.event e, .watermark ⟨0x3fffffffffffffff, 0⟩, .event e] =
            some [[], [], [], [⟨0x4000000000000000, [e], e⟩]] := by decide
    have helements : elements (schedule 0 1 0 [] [e, e]) =
        [.event e, .watermark ⟨0x3fffffffffffffff, 0⟩, .event e] := by decide
    rw [← helements] at hwindow
    have hfirings := run_window_firings hes (show _ ≤ max 4 n by simp) 0 1
      (List.forall_mem_nil _) (.create spec (fun u es => (es.headD (eventAt 0), u)) [] none)
      (fun _ => {})
    have hend := hfirings.trans (congrArg (Option.map List.flatten)
      (TimeWindowPhysicalOperator.runToClose_mono (Nat.le_max_left 4 n) hwindow))
    obtain rfl := Option.some.inj ((hrun _ (Nat.le_max_right 4 n)).symm.trans hend)
    obtain ⟨⟨k, -, hk⟩, -⟩ := hbatch.sound _ List.mem_cons_self
    have hadv : spec.advance.toNat = 5 * 2 ^ 61 := by decide
    have hmul : 2 ^ 62 = k * (5 * 2 ^ 61) := by
      rw [← hadv]
      exact hk
    omega

end

end Xtream
