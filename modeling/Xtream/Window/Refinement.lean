import Xtream.Window.Run

/-!
# When a time window meets its specification

On input whose timestamps stay `size + advance` below `2^64` no watermark makes the window end wrap,
but the first step of the flush can: the counter is then above all the buffered events, the sum
wraps, and the flush goes on from a low counter that is no multiple of `advance`.

* `closeEnd_eq`: the counter at `close`, from the input alone;
* `flush_wrapping`: what the flush does when its first step wraps;
* `meetsSpec_iff`: the run is the one specified iff the wrapped windows find no event.
-/

namespace Xtream

open SlidingWindow

/-- The largest timestamp of the watermarks executed after the first event, 0 if there is none. -/
def reach : Bool → List StreamElement → Nat
  | _, [] => 0
  | _, .event _ :: xs => reach true xs
  | started, .watermark wm :: xs =>
    if started then max wm.timestamp.toNat (reach started xs) else reach started xs

/-- A window fires before `close` iff its end is not after the largest watermark. -/
theorem firingStep_lt_iff {stop : Nat} (hstop : 0 < stop) {started : Bool}
    {xs : List StreamElement} :
    firingStep stop started xs < xs.length ↔ stop ≤ reach started xs := by
  induction xs generalizing started with
  | nil => simp [firingStep, reach]; omega
  | cons x xs ih =>
    cases x with
    | event e => rw [firingStep, reach, List.length_cons, Nat.succ_lt_succ_iff, ih]
    | watermark wm =>
      unfold firingStep reach
      cases started with
      | false => simpa using @ih false
      | true =>
        simp only [true_and, if_true, le_max_iff]
        split
        · rename_i h
          simp [h]
        · rename_i h
          rw [List.length_cons, Nat.succ_lt_succ_iff, ih]
          simp [h]

theorem reach_le {started : Bool} {xs : List StreamElement} {bound : Nat}
    (h : ∀ wm ∈ watermarks xs, wm.timestamp.toNat ≤ bound) : reach started xs ≤ bound := by
  induction xs generalizing started with
  | nil => exact Nat.zero_le _
  | cons x xs ih =>
    cases x with
    | event e => exact ih h
    | watermark wm =>
      rw [watermarks_cons_watermark, List.forall_mem_cons] at h
      unfold reach
      split
      · exact Nat.max_le.mpr ⟨h.1, ih h.2⟩
      · exact ih h.2

namespace TimeWindowPhysicalOperator

variable {U : Type}

/-- The first step of the flush wraps and the flush goes on from the wrapped counter to a window
with an event. -/
def FlushWraps (spec : WindowSpec) (xs : List StreamElement) : Prop :=
  let stop := nextEnd spec.advance.toNat (reach false xs) + spec.advance.toNat
  2 ^ 64 ≤ stop ∧ ∃ e ∈ sinceWatermark [] xs, ∃ j,
    Covers spec.size.toNat (stop - 2 ^ 64 + j * spec.advance.toNat) (time e)

/-- The timestamps of the elements stay `size + advance` below `2^64`. -/
def Bounded (spec : WindowSpec) (xs : List StreamElement) : Prop :=
  ∀ x ∈ xs, x.timestamp.toNat + spec.size.toNat + spec.advance.toNat < 2 ^ 64

/-! ## No watermark wraps -/

theorem watermarkNoWrap_of_bound {op : TimeWindowPhysicalOperator U}
    (hadv : 0 < op.spec.advance.toNat) {wm : Watermark}
    (h : wm.timestamp.toNat + op.spec.advance.toNat < 2 ^ 64) : op.WatermarkNoWrap wm := by
  rw [watermarkNoWrap_iff hadv]
  intro _
  cases hr : op.rounds wm with
  | zero => exact op.endAfter_zero_lt
  | succ k =>
    have := (@lt_rounds_iff _ op hadv wm k).mp (by omega)
    rw [endAfter_succ]
    omega

theorem consumesNoWrap_of_bound {op : TimeWindowPhysicalOperator U} {xs : List StreamElement}
    (hadv : 0 < op.spec.advance.toNat) (hb : Bounded op.spec xs) : op.ConsumesNoWrap xs := by
  induction xs generalizing op with
  | nil => exact trivial
  | cons x xs ih =>
    obtain ⟨hx, hxs⟩ := List.forall_mem_cons.mp hb
    cases x with
    | event e =>
      show (op.onEvent e).ConsumesNoWrap xs
      apply ih
      · rwa [onEvent_spec]
      · rwa [onEvent_spec]
    | watermark wm =>
      have hlt : wm.timestamp.toNat + op.spec.size.toNat + op.spec.advance.toNat < 2 ^ 64 := hx
      have hnw : op.WatermarkNoWrap wm := watermarkNoWrap_of_bound hadv (by omega)
      refine ⟨hnw, fun fuel op' fs h => ih ?_ ?_⟩
      · rwa [onWatermark_keeps_spec h]
      · rwa [onWatermark_keeps_spec h]

/-! ## The counter at `close` -/

/-- The counter at `close`: the first multiple of `advance` after the largest watermark. -/
theorem Leads.closeEnd_eq {spec : WindowSpec} {func : U → List (Event Record) → Event Record × U}
    {captured : U} {outputChannel : Option ChannelId} (hadv : 0 < spec.advance.toNat)
    {xs : List StreamElement} {op : TimeWindowPhysicalOperator U}
    (h : Leads (create spec func captured outputChannel) xs op) :
    op.firstEnd = nextEnd spec.advance.toNat (reach false xs) := by
  obtain ⟨m, hm⟩ := h.shift
  rw [create_endAt] at hm
  have hpassed : ∀ j, (j + 1) * spec.advance.toNat ≤ reach false xs ↔
      (j + 1) * spec.advance.toNat < op.firstEnd := by
    intro j
    rw [← firingStep_lt_iff (Nat.mul_pos (Nat.succ_pos j) hadv), ← create_endAt spec func captured
      outputChannel, ← h.passed j]
    rfl
  rw [hm] at hpassed ⊢
  apply Nat.le_antisymm
  · -- the window before the counter has fired
    cases m with
    | zero =>
      rw [Nat.zero_add, Nat.one_mul]
      unfold nextEnd
      exact Nat.le_mul_of_pos_left _ (Nat.succ_pos _)
    | succ m =>
      have hle := (hpassed m).mpr ((Nat.mul_lt_mul_right hadv).mpr (by omega))
      have hlt := lt_nextEnd hadv (reach false xs)
      unfold nextEnd at hlt ⊢
      have := (Nat.mul_lt_mul_right hadv).mp (hle.trans_lt hlt)
      exact Nat.mul_le_mul_right _ (by omega)
  · rw [nextEnd_le_iff hadv]
    by_contra hcon
    exact Nat.lt_irrefl _ ((hpassed m).mp (Nat.le_of_not_lt hcon))

/-! ## A flush that wraps -/

section

variable {op : TimeWindowPhysicalOperator U}

/-- The flush when its first step wraps. The counter is above all the buffered events, so the
first window is empty; the flush then fires the windows from the wrapped counter on, and ends. -/
theorem flush_wrapping (hadv : 0 < op.spec.advance.toNat) (hinit : op.windowInitialized = true)
    (hts : ∀ e ∈ op.buffer.events, time e + op.spec.size.toNat + op.spec.advance.toNat < 2 ^ 64)
    (hwrap : 2 ^ 64 ≤ op.endAfter 1) (hne : op.buffer.events ≠ []) :
    ∃ n op' fs m, (∀ fuel, n ≤ fuel → op.flush fuel = some (op', fs)) ∧
      fs.map Firing.call = windowsFrom time op.spec.size.toNat op.spec.advance.toNat
        op.buffer.events (op.endAfter 1 - 2 ^ 64) m ∧
      ∀ e ∈ op.buffer.events, ∀ j,
        Covers op.spec.size.toNat (op.endAfter 1 - 2 ^ 64 + j * op.spec.advance.toNat) (time e) →
          j < m := by
  rw [endAfter_succ, endAfter_zero] at hwrap ⊢
  obtain ⟨c, fs₀, hround, hcall₀⟩ := flushRound_eq op []
  have hR := toNat_add_of_ge hwrap
  -- the first window is empty
  have hfs₀ : fs₀ = [] := by
    have hnil : content time op.spec.size.toNat op.nextWindowEnd.toNat op.buffer.events = [] := by
      rw [content, List.filter_eq_nil_iff]
      intro e he hcov
      have := hts e he
      rw [decide_eq_true_iff, covers_iff] at hcov
      omega
    have hw : op.windows 1 = [] := by simp [windows, windowsFrom, hnil]
    rw [hw] at hcall₀
    exact List.map_eq_nil_iff.mp hcall₀
  rw [hfs₀, List.append_nil] at hround
  have hsub : ∀ e ∈ (op.moveTo (op.nextWindowEnd + op.spec.advance) c).buffer.events,
      e ∈ op.buffer.events ∧
        op.nextWindowEnd.toNat + op.spec.advance.toNat - 2 ^ 64 ≤ time e + op.spec.size.toNat := by
    intro e he
    rw [moveTo_events, List.mem_filter, decide_eq_true_iff, hR] at he
    exact ⟨he.1, by omega⟩
  -- from the wrapped counter on nothing wraps
  have hnw : (op.moveTo (op.nextWindowEnd + op.spec.advance) c).FlushNoWrap := by
    apply flushNoWrap_of_bound
    · intro hne'
      obtain ⟨e, he⟩ := List.exists_mem_of_ne_nil _ hne'
      obtain ⟨hmem, hle⟩ := hsub e he
      have := hts e hmem
      rw [endAfter_succ, endAfter_zero, moveTo_nextWindowEnd, moveTo_spec, hR]
      omega
    · intro e he
      exact hts e (hsub e he).1
  obtain ⟨k, op', fs, hrun, -, -, -, hcall, hcover⟩ := flush_spec (by simpa using hadv) hnw hinit
  have hwin : (op.moveTo (op.nextWindowEnd + op.spec.advance) c).windows k =
      windowsFrom time op.spec.size.toNat op.spec.advance.toNat op.buffer.events
        (op.nextWindowEnd.toNat + op.spec.advance.toNat - 2 ^ 64) k := by
    rw [windows, moveTo_nextWindowEnd, moveTo_spec, hR]
    refine windowsFrom_congr fun j _ => ?_
    rw [moveTo_events, hR]
    exact content_filter (Nat.sub_le_sub_right (Nat.le_add_right _ _) _) _
  refine ⟨k + 1, op', fs, k, fun fuel hfuel => ?_, hcall.trans hwin, fun e he j hcov => ?_⟩
  · obtain ⟨fuel, rfl⟩ : ∃ fuel', fuel = fuel' + 1 := ⟨fuel - 1, by omega⟩
    have hflush := hrun fuel (by omega)
    unfold flush at hflush ⊢
    rw [moveTo_windowInitialized, if_pos hinit] at hflush
    rw [if_pos hinit, While.run_pure_succ, hround]
    · exact hflush
    · exact flushTest_eq.mpr hne
  · rw [covers_iff] at hcov
    have hmem : e ∈ (op.moveTo (op.nextWindowEnd + op.spec.advance) c).buffer.events := by
      rw [moveTo_events, List.mem_filter, decide_eq_true_iff, hR]
      exact ⟨he, by omega⟩
    have hlt := hcover e hmem
    rw [endAfter, moveTo_nextWindowEnd, moveTo_spec, hR] at hlt
    exact (Nat.mul_lt_mul_right hadv).mp (by omega)

end

/-! ## The run from the operator as constructed -/

/-- The run to `close` ends and fires what the specification says. -/
def MeetsSpec (op : TimeWindowPhysicalOperator U) (xs : List StreamElement) : Prop :=
  ∃ n tr, (∀ fuel, n ≤ fuel → op.runToClose fuel xs = some tr) ∧ tr.length = xs.length + 1 ∧
    Fires op [] xs tr

section

variable {spec : WindowSpec} {func : U → List (Event Record) → Event Record × U} {captured : U}
  {outputChannel : Option ChannelId} {xs : List StreamElement}
  {op : TimeWindowPhysicalOperator U} {tr : List (List Firing)}

/-- The buffered events are among those executed, so their timestamps are bounded. -/
theorem Completes.buffer_bounded
    (hc : Completes (create spec func captured outputChannel) [] xs op tr) (hb : Bounded spec xs) :
    ∀ e ∈ op.buffer.events, time e + op.spec.size.toNat + op.spec.advance.toNat < 2 ^ 64 := by
  intro e he
  rw [hc.leads.spec]
  exact hb _ (mem_events.mp (hc.tracks.sub e he))

/-- When the first step of the flush would wrap, cleanup has left just the events since the last
watermark. -/
theorem Completes.mem_buffer_iff
    (hc : Completes (create spec func captured outputChannel) [] xs op tr) (hb : Bounded spec xs)
    (hwrap : 2 ^ 64 ≤ op.firstEnd + op.spec.advance.toNat) (e : Event Record) :
    e ∈ op.buffer.events ↔ e ∈ sinceWatermark [] xs := by
  have hret := hc.retains [] (create_retains spec func captured outputChannel)
  refine ⟨fun he => ?_, hret.kept e⟩
  rcases hret.older e he with h | h
  · exact h
  · have := hc.buffer_bounded hb e he
    omega

theorem Completes.flushWraps_iff (hadv : 0 < spec.advance.toNat)
    (hc : Completes (create spec func captured outputChannel) [] xs op tr) (hb : Bounded spec xs) :
    FlushWraps spec xs ↔ 2 ^ 64 ≤ op.firstEnd + op.spec.advance.toNat ∧
      ∃ e ∈ op.buffer.events, ∃ j, Covers op.spec.size.toNat
        (op.firstEnd + op.spec.advance.toNat - 2 ^ 64 + j * op.spec.advance.toNat) (time e) := by
  unfold FlushWraps
  rw [hc.leads.closeEnd_eq hadv, hc.leads.spec]
  simp only []
  refine and_congr_right fun hwrap => exists_congr fun e => and_congr_left fun _ => ?_
  rw [hc.mem_buffer_iff hb]
  rw [hc.leads.closeEnd_eq hadv, hc.leads.spec]
  exact hwrap

/-- A flush in which nothing wraps. -/
theorem Completes.not_flushWraps (hadv : 0 < spec.advance.toNat)
    (hc : Completes (create spec func captured outputChannel) [] xs op tr) (hb : Bounded spec xs)
    (hnw : op.FlushNoWrap) : ¬ FlushWraps spec xs := by
  rw [hc.flushWraps_iff hadv hb]
  rintro ⟨hwrap, e, he, -⟩
  have hne : op.buffer.events ≠ [] := List.ne_nil_of_mem he
  have hinit : op.windowInitialized = true := by
    by_contra hcon
    exact hne (hc.tracks.fresh (by simpa using hcon))
  have hlt := hnw hinit 1 fun j hj => by
    obtain rfl : j = 0 := by omega
    exact flushTest_eq.mpr hne
  rw [endAfter_succ, endAfter_zero, ← op.firstEnd_of_started hinit] at hlt
  omega

/-- A flush in which something wraps starts with a wrapping step. -/
theorem Completes.first_wraps
    (hc : Completes (create spec func captured outputChannel) [] xs op tr) (hb : Bounded spec xs)
    (hnw : ¬ op.FlushNoWrap) :
    op.windowInitialized = true ∧ op.buffer.events ≠ [] ∧ 2 ^ 64 ≤ op.endAfter 1 := by
  have hinit : op.windowInitialized = true := by
    by_contra hcon
    exact hnw fun h => absurd h hcon
  have hfirst : ¬ (op.buffer.events ≠ [] → op.endAfter 1 < 2 ^ 64) := fun h =>
    hnw (flushNoWrap_of_bound h (hc.buffer_bounded hb))
  rw [Classical.not_imp] at hfirst
  exact ⟨hinit, hfirst.1, Nat.le_of_not_lt hfirst.2⟩

end

/-- How a run on bounded input ends: as specified, or, when the flush wraps, with a call at
`close` for a window before the counter that covers an event executed since the last watermark. -/
theorem runToClose_outcome (spec : WindowSpec)
    (func : U → List (Event Record) → Event Record × U) (captured : U)
    (outputChannel : Option ChannelId) (hadv : 0 < spec.advance.toNat) {xs : List StreamElement}
    (hb : Bounded spec xs) :
    ∃ n tr, (∀ fuel, n ≤ fuel →
        (create spec func captured outputChannel).runToClose fuel xs = some tr) ∧
      tr.length = xs.length + 1 ∧
      ((¬ FlushWraps spec xs ∧ Fires (create spec func captured outputChannel) [] xs tr) ∨
        (FlushWraps spec xs ∧ ∃ fs, tr[xs.length]? = some fs ∧ ∃ f ∈ fs,
          f.windowEnd.toNat < nextEnd spec.advance.toNat (reach false xs) ∧
          ∃ e ∈ sinceWatermark [] xs, Covers spec.size.toNat f.windowEnd.toNat (time e))) := by
  obtain ⟨n, op, tr, hrun, hc⟩ := consumeAll_spec hadv
    (create_tracks spec func captured outputChannel) (consumesNoWrap_of_bound hadv hb)
  have hadv' : 0 < op.spec.advance.toNat := by rwa [hc.leads.spec]
  by_cases hnw : op.FlushNoWrap
  · obtain ⟨m, op', fs, hflush, hf⟩ := flush_fires hadv' hc.tracks hnw
    obtain ⟨hrun', hlen, hfires⟩ := runToClose_of hadv hrun hc hflush
    exact ⟨_, _, hrun', hlen, Or.inl ⟨hc.not_flushWraps hadv hb hnw, hfires hf⟩⟩
  · obtain ⟨hinit, hne, hwrap⟩ := hc.first_wraps hb hnw
    obtain ⟨m, op', fs, k, hflush, hcall, hcover⟩ :=
      flush_wrapping hadv' hinit (hc.buffer_bounded hb) hwrap hne
    obtain ⟨hrun', hlen, hfires⟩ := runToClose_of hadv hrun hc hflush
    have hstop : op.firstEnd + op.spec.advance.toNat = op.endAfter 1 := by
      rw [endAfter_succ, endAfter_zero, op.firstEnd_of_started hinit]
    -- a window end that covers a buffered event is before the counter
    have hlow : ∀ e ∈ op.buffer.events, ∀ E, Covers op.spec.size.toNat E (time e) →
        E < op.firstEnd := by
      intro e he E hcov
      have := hc.buffer_bounded hb e he
      rw [covers_iff] at hcov
      omega
    refine ⟨_, _, hrun', hlen, ?_⟩
    by_cases hfw : FlushWraps spec xs
    · refine Or.inr ⟨hfw, fs, by rw [← hc.length]; simp, ?_⟩
      have hfw' := (hc.flushWraps_iff hadv hb).mp hfw
      rw [hstop] at hfw'
      obtain ⟨-, e, he, j, hcov⟩ := hfw'
      have hmem := mem_windowsFrom.mpr ⟨j, hcover e he j hcov, rfl, rfl,
        List.ne_nil_of_mem (mem_content.mpr ⟨he, hcov⟩)⟩
      rw [← hcall] at hmem
      obtain ⟨f, hf, hfc⟩ := List.mem_map.mp hmem
      have hE : f.windowEnd.toNat = op.endAfter 1 - 2 ^ 64 + j * op.spec.advance.toNat :=
        congrArg Prod.fst hfc
      rw [← hE] at hcov
      refine ⟨f, hf, ?_, e, ?_, ?_⟩
      · rw [← hc.leads.closeEnd_eq hadv]
        exact hlow e he _ hcov
      · rw [← hc.mem_buffer_iff hb (by rwa [hstop])]
        exact he
      · rw [hc.leads.spec] at hcov
        exact hcov
    · have hno := mt (hc.flushWraps_iff hadv hb).mpr hfw
      rw [hstop] at hno
      have hfs : fs = [] := by
        rw [← List.map_eq_nil_iff (f := Firing.call), hcall, List.eq_nil_iff_forall_not_mem]
        rintro ⟨E, v⟩ hv
        obtain ⟨j, -, rfl, rfl, hvne⟩ := mem_windowsFrom.mp hv
        obtain ⟨e, he⟩ := List.exists_mem_of_ne_nil _ hvne
        obtain ⟨hmem, hcov⟩ := mem_content.mp he
        exact hno ⟨hwrap, e, hmem, j, hcov⟩
      refine Or.inl ⟨hfw, hfires ?_⟩
      rw [hfs]
      refine Fires.silent_close hc.tracks fun j => ?_
      rw [content, List.filter_eq_nil_iff]
      intro e he hcov
      rw [decide_eq_true_iff] at hcov
      have := hlow e he _ hcov
      have := op.firstEnd_le_endAt j
      omega

/-- **When the time window meets its specification**: on input `size + advance` below `2^64`, iff
the flush does not go on from a wrapped counter to a window with an event. -/
theorem meetsSpec_iff (spec : WindowSpec)
    (func : U → List (Event Record) → Event Record × U) (captured : U)
    (outputChannel : Option ChannelId) (hadv : 0 < spec.advance.toNat) (xs : List StreamElement)
    (hb : Bounded spec xs) :
    (create spec func captured outputChannel).MeetsSpec xs ↔ ¬ FlushWraps spec xs := by
  obtain ⟨n, tr, hrun, hlen, ⟨hno, hfires⟩ | ⟨hfw, fs, hfs, f, hf, hlt, e, -, hcov⟩⟩ :=
    runToClose_outcome spec func captured outputChannel hadv hb
  · exact iff_of_true ⟨n, tr, hrun, hlen, hfires⟩ hno
  · refine iff_of_false ?_ (not_not_intro hfw)
    rintro ⟨n', tr', hrun', -, hfires⟩
    obtain rfl : tr = tr' :=
      runToClose_unique (hrun _ (Nat.le_refl _)) (hrun' _ (Nat.le_refl _))
    obtain ⟨⟨j, hE⟩, hstep, -⟩ := hfires.sound xs.length fs hfs f hf
    rw [create_endAt] at hE
    -- a window that fires at `close` is not before the counter
    have hpos : 0 < f.windowEnd.toNat := by
      rw [covers_iff] at hcov
      omega
    have hreach := mt (firingStep_lt_iff hpos).mpr (by
      rw [show (create spec func captured outputChannel).windowInitialized = false from rfl] at hstep
      rw [← hstep]
      exact Nat.lt_irrefl _)
    rw [hE, Nat.not_le, ← nextEnd_le_iff hadv] at hreach
    omega

/-- A sliding window, a late event and a watermark: the run meets the specification. -/
theorem meetsSpec_sliding : (create (timeWindow 10 5) (fun u es => (es.headD (eventAt 0), u)) ()
    none).MeetsSpec [.event (eventAt 7), .watermark ⟨12, 0⟩, .event (eventAt 3)] := by
  refine (meetsSpec_iff _ _ _ _ (by decide) _ ?_).mpr fun h => absurd h.1 (by decide)
  unfold Bounded
  decide

/-- One event at `2^62 - 1`, then `close`: the flush steps from the window end `2^63 + 2^61`, above
the event, to `2^62`, which covers it but is no multiple of `advance`. -/
theorem wrapping_flush_breaks_spec : ∃ (spec : WindowSpec) (xs : List StreamElement),
    0 < spec.advance.toNat ∧ Bounded spec xs ∧
      ¬ (create spec (fun u es => (es.headD (eventAt 0), u)) () none).MeetsSpec xs := by
  let spec := timeWindow 0x1000000000000000 0xa000000000000000
  let e := eventAt 0x3fffffffffffffff
  refine ⟨spec, [.event e], by decide, ?_, ?_⟩
  · intro x hx
    obtain rfl := List.mem_singleton.mp hx
    decide
  · rintro ⟨n, tr, hrun, -, hfires⟩
    have hrun' : (create spec (fun u es => (es.headD (eventAt 0), u)) () none).runToClose 3
        [.event e] = some [[], [⟨0x4000000000000000, [e], e⟩]] := by decide
    obtain rfl := runToClose_unique (hrun _ (Nat.le_refl _)) hrun'
    obtain ⟨⟨j, hj⟩, -⟩ := hfires.sound 1 _ rfl _ (List.mem_singleton.mpr rfl)
    rw [create_endAt] at hj
    have hadv : spec.advance.toNat = 5 * 2 ^ 61 := by decide
    have hend : (0x4000000000000000 : UInt64).toNat = 2 ^ 62 := by decide
    have hmul : 2 ^ 62 = (j + 1) * (5 * 2 ^ 61) := by
      rw [← hend, ← hadv]
      exact hj
    omega

/-! ## What a watermark promises -/

/-- No window end wraps in a run on bounded input whose last window end is not within one step of
`2^64`. -/
theorem runNoWrap_of_bound {spec : WindowSpec} {func : U → List (Event Record) → Event Record × U}
    {captured : U} {outputChannel : Option ChannelId} {xs : List StreamElement}
    (hadv : 0 < spec.advance.toNat) (hb : Bounded spec xs)
    (hclose : nextEnd spec.advance.toNat (reach false xs) + spec.advance.toNat < 2 ^ 64) :
    (create spec func captured outputChannel).RunNoWrap xs := by
  have hnw := @consumesNoWrap_of_bound _ (create spec func captured outputChannel) xs hadv hb
  refine ⟨hnw, fun fuel op tr hrun => ?_⟩
  obtain ⟨n, op', tr', hrun', hc⟩ := consumeAll_spec hadv
    (create_tracks spec func captured outputChannel) hnw
  have h := consumeAll_mono (Nat.le_max_left fuel n) hrun
  rw [hrun' _ (Nat.le_max_right fuel n)] at h
  cases h
  by_contra hcon
  obtain ⟨hinit, -, hwrap⟩ := hc.first_wraps hb hcon
  rw [endAfter_succ, endAfter_zero, ← op.firstEnd_of_started hinit, hc.leads.closeEnd_eq hadv,
    hc.leads.spec] at hwrap
  exact Nat.not_le_of_lt hclose hwrap

theorem firingStep_le_of_watermark {stop : Nat} {xs ys : List StreamElement} {wm : Watermark}
    {started : Bool} (hstarted : startedAfter started xs = true)
    (hle : stop ≤ wm.timestamp.toNat) :
    firingStep stop started (xs ++ .watermark wm :: ys) ≤ xs.length := by
  rcases Nat.lt_or_ge (firingStep stop started xs) xs.length with h | h
  · rw [firingStep_append_of_lt h]
    exact firingStep_le _ _ _
  · rw [firingStep_append_of_eq (Nat.le_antisymm (firingStep_le _ _ _) h), hstarted, firingStep,
      if_pos ⟨rfl, hle⟩]
    exact Nat.le_refl _

/-- **A watermark after the first event is a promise**: every window fired at a later step ends
after it. -/
theorem watermark_promise (spec : WindowSpec)
    (func : U → List (Event Record) → Event Record × U) (captured : U)
    (outputChannel : Option ChannelId) (hadv : 0 < spec.advance.toNat)
    (xs ys : List StreamElement) (wm : Watermark) (hev : events xs ≠ [])
    (hnw : (create spec func captured outputChannel).RunNoWrap (xs ++ .watermark wm :: ys)) :
    ∃ n tr, (∀ fuel, n ≤ fuel → (create spec func captured outputChannel).runToClose fuel
        (xs ++ .watermark wm :: ys) = some tr) ∧
      ∀ i fs, xs.length < i → tr[i]? = some fs → ∀ f ∈ fs, wm.timestamp < f.windowEnd := by
  obtain ⟨n, tr, hrun, -, hfires⟩ := runToClose_spec hadv
    (create_tracks spec func captured outputChannel) hnw
  refine ⟨n, tr, hrun, fun i fs hi hfs f hf => ?_⟩
  obtain ⟨-, hstep, -⟩ := hfires.sound i fs hfs f hf
  rw [UInt64.lt_iff_toNat_lt]
  by_contra hcon
  have hstarted : startedAfter false xs = true := by simpa [startedAfter] using hev
  have := @firingStep_le_of_watermark _ xs ys wm _ hstarted (Nat.le_of_not_lt hcon)
  rw [show (create spec func captured outputChannel).windowInitialized = false from rfl] at hstep
  omega

/-- A tumbling window after an event and a watermark. -/
theorem watermark_promise_tumbling : ∃ n tr, (∀ fuel, n ≤ fuel →
      (create (timeTumblingWindow 5) (fun u es => (es.headD (eventAt 0), u)) () none).runToClose
        fuel [.event (eventAt 3), .watermark ⟨10, 0⟩, .event (eventAt 4)] = some tr) ∧
    ∀ i fs, 1 < i → tr[i]? = some fs → ∀ f ∈ fs, (10 : UInt64) < f.windowEnd := by
  refine watermark_promise _ _ _ _ (by decide) [.event (eventAt 3)] [.event (eventAt 4)] ⟨10, 0⟩
    (by decide) (runNoWrap_of_bound (by decide) ?_ (by decide))
  unfold Bounded
  decide

/-- A watermark before the first event promises nothing: after the watermark 10 an event at 3
arrives, and `close` emits the window that ends at 5. -/
theorem early_watermark_no_promise : ∃ (spec : WindowSpec) (ys : List StreamElement)
    (wm : Watermark) (fuel : Nat) (tr : List (List Firing)),
    0 < spec.size.toNat ∧ 0 < spec.advance.toNat ∧
      (create spec (fun u es => (es.headD (eventAt 0), u)) () none).RunNoWrap
        (.watermark wm :: ys) ∧
      (create spec (fun u es => (es.headD (eventAt 0), u)) () none).runToClose fuel
        (.watermark wm :: ys) = some tr ∧
      ∃ fs ∈ tr[2]?, ∃ f ∈ fs, f.windowEnd < wm.timestamp := by
  refine ⟨timeTumblingWindow 5, [.event (eventAt 3)], ⟨10, 0⟩, 3,
    [[], [], [⟨5, [eventAt 3], eventAt 3⟩]], by decide, by decide,
    runNoWrap_of_bound (by decide) ?_ (by decide), by decide, by decide⟩
  unfold Bounded
  decide

end TimeWindowPhysicalOperator

end Xtream
