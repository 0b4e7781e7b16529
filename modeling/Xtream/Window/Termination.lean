import Xtream.Window.Run

/-!
# When the two loops of the time window end

Neither loop guards its addition. From any reachable state

* `watermarkLoop_iff`: the loop of `on_watermark` ends without a wrap iff the first window end after
  the watermark is a 64-bit number; when every watermark of a run is so, no window fires twice;
* `flushLoop_iff`: the loop of `close` ends iff every buffered event is `size` and one greatest
  common divisor of `advance` and `2^64` below `2^64`, since the wrapping counter takes every
  multiple of this divisor again and again.
-/

namespace Xtream

open SlidingWindow

namespace TimeWindowPhysicalOperator

variable {U : Type}

/-- The states of the operator: from the one constructed, by any elements in any order. -/
inductive Reachable (spec : WindowSpec) (func : U → List (Event Record) → Event Record × U)
    (captured : U) (outputChannel : Option ChannelId) : TimeWindowPhysicalOperator U → Prop
  | create : Reachable spec func captured outputChannel (create spec func captured outputChannel)
  | consume {op op' : TimeWindowPhysicalOperator U} {fuel : Nat} {x : StreamElement}
      {fs : List Firing} : Reachable spec func captured outputChannel op →
      op.consume fuel x = some (op', fs) → Reachable spec func captured outputChannel op'

theorem consume_keeps_spec {op op' : TimeWindowPhysicalOperator U} {fuel : Nat}
    {x : StreamElement} {fs : List Firing} (h : op.consume fuel x = some (op', fs)) :
    op'.spec = op.spec := by
  cases x with
  | event e =>
    cases h
    exact op.onEvent_spec e
  | watermark wm => exact onWatermark_keeps_spec h

section

variable {spec : WindowSpec} {func : U → List (Event Record) → Event Record × U} {captured : U}
  {outputChannel : Option ChannelId} {op : TimeWindowPhysicalOperator U}

theorem Reachable.spec_eq (h : Reachable spec func captured outputChannel op) : op.spec = spec := by
  induction h with
  | create => rfl
  | consume _ hrun ih => rw [consume_keeps_spec hrun, ih]

/-- The invariant of the counter: 0 events before it is set, then a multiple of every common
divisor of `advance` and `2^64`. -/
theorem Reachable.counter (h : Reachable spec func captured outputChannel op) :
    (op.windowInitialized = false → op.buffer.events = []) ∧
      (op.windowInitialized = true →
        Nat.gcd op.spec.advance.toNat (2 ^ 64) ∣ op.nextWindowEnd.toNat) := by
  induction h with
  | create => exact ⟨fun _ => rfl, nofun⟩
  | @consume op op' fuel x fs _ hrun ih =>
    cases x with
    | event e =>
      cases hrun
      rw [onEvent_windowInitialized]
      refine ⟨nofun, fun _ => ?_⟩
      rw [onEvent_spec, ← firstEnd_of_started _ (op.onEvent_windowInitialized e), onEvent_firstEnd]
      cases hinit : op.windowInitialized with
      | false =>
        rw [firstEnd, hinit]
        exact Nat.gcd_dvd_left _ _
      | true =>
        rw [op.firstEnd_of_started hinit]
        exact ih.2 hinit
    | watermark wm =>
      obtain ⟨-, rfl⟩ | ⟨hinit, N, c, k, rfl, hN⟩ := onWatermark_result hrun
      · exact ih
      · refine ⟨fun h => ?_, fun _ => ?_⟩
        · rw [moveTo_windowInitialized, hinit] at h
          cases h
        · rw [moveTo_nextWindowEnd, moveTo_spec, hN]
          exact ModularCounter.dvd_value (ih.2 hinit) k

end

/-! ## The loop of a watermark -/

/-- The first window end after the watermark is a 64-bit number. -/
def WatermarkFits (op : TimeWindowPhysicalOperator U) (wm : Watermark) : Prop :=
  op.windowInitialized = true → op.nextWindowEnd.toNat ≤ wm.timestamp.toNat →
    op.nextWindowEnd.toNat + ((wm.timestamp.toNat - op.nextWindowEnd.toNat) /
      op.spec.advance.toNat + 1) * op.spec.advance.toNat < 2 ^ 64

instance (op : TimeWindowPhysicalOperator U) (wm : Watermark) : Decidable (op.WatermarkFits wm) :=
  inferInstanceAs (Decidable (_ → _ → _))

/-- The loop of the watermark ends, the counter does not go down, and no window end that the loop
evaluates has wrapped. -/
def WatermarkLoopOk (op : TimeWindowPhysicalOperator U) (wm : Watermark) : Prop :=
  (∃ n op' fs, (∀ fuel, n ≤ fuel → op.onWatermark fuel wm = some (op', fs)) ∧
    op.nextWindowEnd ≤ op'.nextWindowEnd) ∧ op.WatermarkNoWrap wm

/-- Every watermark of the sequence fits, in the state in which it is executed. -/
def FitsAll : TimeWindowPhysicalOperator U → List StreamElement → Prop
  | _, [] => True
  | op, .event e :: xs => FitsAll (op.onEvent e) xs
  | op, .watermark wm :: xs => op.WatermarkFits wm ∧
      ∀ fuel op' fs, op.onWatermark fuel wm = some (op', fs) → FitsAll op' xs

theorem watermarkFits_iff {op : TimeWindowPhysicalOperator U} (hadv : 0 < op.spec.advance.toNat)
    {wm : Watermark} : op.WatermarkFits wm ↔ op.WatermarkNoWrap wm := by
  rw [watermarkNoWrap_iff hadv, WatermarkFits]
  refine forall_congr' fun _ => ?_
  unfold endAfter rounds
  split
  · rename_i h
    simp [h]
  · rename_i h
    simp [h, op.nextWindowEnd.toNat_lt]

theorem watermarkLoopOk_iff {op : TimeWindowPhysicalOperator U}
    (hadv : 0 < op.spec.advance.toNat) (wm : Watermark) :
    op.WatermarkLoopOk wm ↔ op.WatermarkFits wm := by
  rw [watermarkFits_iff hadv]
  refine ⟨And.right, fun hnw => ⟨?_, hnw⟩⟩
  by_cases hinit : op.windowInitialized = true
  · obtain ⟨c, N, fs, hrun, hN, -⟩ := onWatermark_spec hadv hnw hinit
    refine ⟨_, _, fs, hrun, ?_⟩
    rw [moveTo_nextWindowEnd, UInt64.le_iff_toNat_le, hN, ← endAfter_zero]
    exact op.endAfter_mono (Nat.zero_le _)
  · refine ⟨0, op, [], fun fuel _ => ?_, UInt64.le_refl _⟩
    unfold onWatermark
    rw [if_pos (by simpa using hinit)]

theorem fitsAll_noWrap {op : TimeWindowPhysicalOperator U} {xs : List StreamElement}
    (hadv : 0 < op.spec.advance.toNat) (h : op.FitsAll xs) : op.ConsumesNoWrap xs := by
  induction xs generalizing op with
  | nil => exact trivial
  | cons x xs ih =>
    cases x with
    | event e =>
      show (op.onEvent e).ConsumesNoWrap xs
      apply ih _ h
      rwa [onEvent_spec]
    | watermark wm =>
      have hnw := (watermarkFits_iff hadv).mp h.1
      refine ⟨hnw, fun fuel op' fs hrun => ih ?_ (h.2 fuel op' fs hrun)⟩
      rwa [onWatermark_keeps_spec hrun]

/-- **The loop of a watermark.** In every reachable state it ends, with a counter that has not gone
down and no wrapped window end, iff the first window end after the watermark is a 64-bit number. In
a run whose watermarks are all so, the window ends fired strictly increase: no window fires
twice. -/
theorem watermarkLoop_iff (spec : WindowSpec)
    (func : U → List (Event Record) → Event Record × U) (captured : U)
    (outputChannel : Option ChannelId) (hadv : 0 < spec.advance.toNat) :
    (∀ op, Reachable spec func captured outputChannel op → ∀ wm,
      (op.WatermarkLoopOk wm ↔ op.WatermarkFits wm)) ∧
    ∀ xs, (create spec func captured outputChannel).FitsAll xs → ∃ n op tr,
      (∀ fuel, n ≤ fuel →
        (create spec func captured outputChannel).consumeAll fuel xs = some (op, tr)) ∧
      (tr.flatten.map Firing.windowEnd).Pairwise (· < ·) := by
  constructor
  · intro op hop wm
    have hspec : op.spec = spec := hop.spec_eq
    exact watermarkLoopOk_iff (by rwa [hspec]) wm
  · intro xs hfits
    obtain ⟨n, op, tr, hrun, hc⟩ := consumeAll_spec hadv
      (create_tracks spec func captured outputChannel) (fitsAll_noWrap hadv hfits)
    refine ⟨n, op, tr, hrun, ?_⟩
    have hinc := hc.fires.increasing
    rw [List.pairwise_map] at hinc ⊢
    exact hinc.imp fun h => UInt64.lt_iff_toNat_lt.mpr h

/-- Windows of one event each: the watermark 2 fits in the state after the event 0. -/
theorem watermarkLoop_small :
    ((create (timeWindow 1 1) (fun u es => (es.headD (eventAt 0), u)) () none).onEvent
      (eventAt 0)).WatermarkLoopOk ⟨2, 0⟩ := by
  refine ((watermarkLoop_iff (timeWindow 1 1) (fun u es => (es.headD (eventAt 0), u)) () none
    (by decide)).1 _ ?_ _).mpr (by decide)
  exact @Reachable.consume _ _ _ _ _ _ _ 0 (.event (eventAt 0)) [] .create rfl

/-- At the watermark `2^64 - 1` the loop never ends: every counter passes its test. -/
theorem watermarkLoop_never_ends : ∃ op : TimeWindowPhysicalOperator Unit,
    Reachable (timeWindow 1 1) (fun u es => (es.headD (eventAt 0), u)) () none op ∧
      ∀ fuel, op.onWatermark fuel ⟨0xffffffffffffffff, 0⟩ = none := by
  refine ⟨(create (timeWindow 1 1) _ () none).onEvent (eventAt 0),
    @Reachable.consume _ _ _ _ _ _ _ 0 (.event (eventAt 0)) [] .create rfl, fun fuel => ?_⟩
  have hnone : ∀ s : LoopState Unit, While.run (watermarkTest ⟨0xffffffffffffffff, 0⟩)
      (watermarkRound ⟨0xffffffffffffffff, 0⟩) fuel s = none := by
    intro s
    rw [run_watermarkRound, Option.eq_none_iff_forall_ne_some]
    intro r hr
    obtain ⟨k, -, -, htest, -⟩ := While.run_pure_iff.mp hr
    have hle : r.1.nextWindowEnd ≤ 0xffffffffffffffff := by
      rw [UInt64.le_iff_toNat_le]
      exact Nat.lt_succ_iff.mp r.1.nextWindowEnd.toNat_lt
    simp [watermarkTest, hle] at htest
  unfold onWatermark
  exact congrArg (fun s => Option.bind s _) (hnone _)

/-! ## The loop of `close` -/

section

variable {op : TimeWindowPhysicalOperator U}

/-- The counter of the flush after `k` rounds. -/
abbrev flushCounter (op : TimeWindowPhysicalOperator U) (k : Nat) : Nat :=
  ModularCounter.value op.nextWindowEnd.toNat op.spec.advance.toNat (2 ^ 64) k

/-- After `k` rounds, wrapping or not: an event is in the buffer iff no round has moved the window
past it. -/
theorem iterate_flushRound_value (op : TimeWindowPhysicalOperator U) (fs : List Firing) (k : Nat) :
    ∃ r : LoopState U, flushRound^[k] (op, fs) = r ∧ r.1.spec = op.spec ∧
      r.1.nextWindowEnd.toNat = op.flushCounter k ∧
      ∀ e, e ∈ r.1.buffer.events ↔ e ∈ op.buffer.events ∧
        ∀ i < k, op.flushCounter (i + 1) ≤ time e + op.spec.size.toNat := by
  induction k with
  | zero =>
    refine ⟨_, rfl, rfl, ?_, fun e => by simp⟩
    rw [flushCounter, ModularCounter.value, Nat.zero_mul, Nat.add_zero,
      Nat.mod_eq_of_lt op.nextWindowEnd.toNat_lt]
    rfl
  | succ k ih =>
    obtain ⟨r, hr, hspec, hN, hmem⟩ := ih
    obtain ⟨c, fs', hround, -⟩ := flushRound_eq r.1 r.2
    have hN' : (r.1.nextWindowEnd + r.1.spec.advance).toNat = op.flushCounter (k + 1) := by
      rw [flushCounter, ModularCounter.value_succ, UInt64.toNat_add, hN, hspec]
    refine ⟨_, rfl, ?_⟩
    rw [Function.iterate_succ_apply', hr, hround]
    refine ⟨hspec, hN', fun e => ?_⟩
    rw [moveTo_events, List.mem_filter, decide_eq_true_iff, hmem, hN', hspec, and_assoc]
    refine and_congr_right fun _ => ?_
    rw [Nat.forall_lt_succ_right, Nat.sub_le_iff_le_add]

/-- The loop test after `k` rounds. -/
theorem flushTest_iterate_value (op : TimeWindowPhysicalOperator U) (k : Nat) :
    flushTest (flushRound^[k] (op, [])) = true ↔ ∃ e ∈ op.buffer.events,
      ∀ i < k, op.flushCounter (i + 1) ≤ time e + op.spec.size.toNat := by
  obtain ⟨r, hr, -, -, hmem⟩ := iterate_flushRound_value op [] k
  rw [hr, flushTest_eq]
  constructor
  · intro hne
    obtain ⟨e, he⟩ := List.exists_mem_of_ne_nil _ hne
    exact ⟨e, (hmem e).mp he⟩
  · rintro ⟨e, he⟩
    exact List.ne_nil_of_mem ((hmem e).mpr he)

/-- Every buffered event is `size` and one greatest common divisor of `advance` and `2^64` below
`2^64`. -/
def BufferFits (op : TimeWindowPhysicalOperator U) : Prop :=
  ∀ e ∈ op.buffer.events,
    time e + op.spec.size.toNat + Nat.gcd op.spec.advance.toNat (2 ^ 64) < 2 ^ 64

/-- When the flush ends: the wrapping counter passes every event that is not too close to
`2^64`, and no other. -/
theorem flush_ends_iff (hdvd : Nat.gcd op.spec.advance.toNat (2 ^ 64) ∣ op.nextWindowEnd.toNat) :
    (∃ k, flushTest (flushRound^[k] (op, [])) = false) ↔ op.BufferFits := by
  simp only [← Bool.not_eq_true, flushTest_iterate_value]
  have hg : Nat.gcd op.spec.advance.toNat (2 ^ 64) ≤ 2 ^ 64 := Nat.gcd_le_right _ (by decide)
  constructor
  · rintro ⟨k, hk⟩ e he
    by_contra hcon
    refine hk ⟨e, he, fun i _ => ?_⟩
    have := ModularCounter.value_le (by decide) hdvd (i + 1)
    rw [flushCounter]
    omega
  · intro hfits
    obtain ⟨k, hk1, hk⟩ := ModularCounter.exists_value_eq (by decide) hdvd 1
    obtain ⟨k, rfl⟩ : ∃ k', k = k' + 1 := ⟨k - 1, by omega⟩
    refine ⟨k + 1, ?_⟩
    rintro ⟨e, he, hall⟩
    have h1 := hall k (Nat.lt_succ_self k)
    rw [flushCounter, hk] at h1
    have h2 := hfits e he
    omega

/-- The firings of later rounds are added behind those of earlier ones. -/
theorem iterate_flushRound_grows (s : LoopState U) {j k : Nat} (h : j ≤ k) :
    (flushRound^[j] s).2 <+: (flushRound^[k] s).2 := by
  induction k, h using Nat.le_induction with
  | base => exact List.prefix_rfl
  | succ k _ ih =>
    obtain ⟨c, fs', hround, -⟩ := flushRound_eq (flushRound^[k] s).1 (flushRound^[k] s).2
    rw [Function.iterate_succ_apply', hround]
    exact ih.trans (List.prefix_append _ _)

/-- An event that a window covers is passed to the function before the flush ends, as long as
the window end is a 64-bit number. -/
theorem flush_covers {k : Nat} (hend : flushTest (flushRound^[k] (op, [])) = false)
    {e : Event Record} (he : e ∈ op.buffer.events) {j : Nat} (hj : op.endAfter j < 2 ^ 64)
    (hcov : Covers op.spec.size.toNat (op.endAfter j) (time e)) :
    ∃ f ∈ (flushRound^[k] (op, [])).2, e ∈ f.events := by
  rw [covers_iff] at hcov
  have hvalue : ∀ i ≤ j, op.flushCounter i = op.endAfter i := fun i hi =>
    ModularCounter.value_eq_of_lt ((op.endAfter_mono hi).trans_lt hj)
  -- the event stays in the buffer up to its window
  have hstay : ∀ i ≤ j, ∀ i' < i, op.flushCounter (i' + 1) ≤ time e + op.spec.size.toNat := by
    intro i hi i' hi'
    rw [hvalue (i' + 1) (by omega)]
    have := op.endAfter_mono (show i' + 1 ≤ j by omega)
    omega
  have hjk : j < k := by
    by_contra hcon
    have := (flushTest_iterate_value op k).mpr ⟨e, he, hstay k (by omega)⟩
    rw [hend] at this
    cases this
  obtain ⟨r, hr, hspec, hN, hmem⟩ := iterate_flushRound_value op [] j
  obtain ⟨c, fs', hround, hcall⟩ := flushRound_eq r.1 r.2
  have hin : e ∈ content time r.1.spec.size.toNat r.1.nextWindowEnd.toNat r.1.buffer.events := by
    rw [mem_content, hmem, hN, hvalue j (Nat.le_refl j), hspec, covers_iff]
    exact ⟨⟨he, hstay j (Nat.le_refl j)⟩, hcov⟩
  have hwin : (r.1.nextWindowEnd.toNat, _) ∈ r.1.windows 1 :=
    mem_windowsFrom.mpr ⟨0, by omega, by simp, rfl, List.ne_nil_of_mem hin⟩
  rw [← hcall] at hwin
  obtain ⟨f, hf, hfc⟩ := List.mem_map.mp hwin
  refine ⟨f, (iterate_flushRound_grows (op, []) hjk).subset ?_, ?_⟩
  · rw [Function.iterate_succ_apply', hr, hround]
    exact List.mem_append_right _ hf
  · rw [show f.events = _ from congrArg Prod.snd hfc]
    exact hin

end

/-- `close` ends with an empty buffer, has passed to the function every event that a window which
has not fired covers, and closes the output channel. -/
def CloseOk (op : TimeWindowPhysicalOperator U) : Prop :=
  ∃ n op' fs, (∀ fuel, n ≤ fuel → op.flush fuel = some (op', fs) ∧ op.close fuel =
      some (op', op.outputs fs ++ op.outputChannel.toList.map .closeChannel)) ∧
    op'.buffer.events = [] ∧
    ∀ e ∈ op.buffer.events, ∀ j, Covers op.spec.size.toNat (op.endAt j) (time e) →
      ∃ f ∈ fs, e ∈ f.events

theorem close_of_flush {op op' : TimeWindowPhysicalOperator U} {fuel : Nat} {fs : List Firing}
    (h : op.flush fuel = some (op', fs)) : op.close fuel =
      some (op', op.outputs fs ++ op.outputChannel.toList.map .closeChannel) := by
  unfold close
  rw [h]
  rfl

/-- **The loop of `close`.** In every reachable state it ends with an empty buffer, with every event
that an unfired window covers passed to the function and the channel closed, iff every buffered
event is far enough below `2^64`. -/
theorem flushLoop_iff (spec : WindowSpec) (func : U → List (Event Record) → Event Record × U)
    (captured : U) (outputChannel : Option ChannelId) (op : TimeWindowPhysicalOperator U)
    (hop : Reachable spec func captured outputChannel op) : op.CloseOk ↔ op.BufferFits := by
  obtain ⟨hfresh, hdvd⟩ := hop.counter
  by_cases hinit : op.windowInitialized = true
  · have hflush : ∀ fuel, op.flush fuel =
        While.run flushTest (While.pure flushRound) fuel (op, []) := by
      intro fuel
      unfold flush
      rw [if_pos hinit]
    rw [← flush_ends_iff (hdvd hinit)]
    constructor
    · rintro ⟨n, op', fs, hrun, -⟩
      have h := (hrun n (Nat.le_refl n)).1
      rw [hflush] at h
      obtain ⟨k, -, hk, hend, -⟩ := While.run_pure_iff.mp h
      rw [hk] at hend
      exact ⟨k, hend⟩
    · intro hends
      have hfits := (flush_ends_iff (hdvd hinit)).mp hends
      obtain ⟨n, r, hrun⟩ := While.ends_pure_iff.mpr hends
      obtain ⟨k, -, rfl, hend, -⟩ := While.run_pure_iff.mp hrun
      refine ⟨n, (flushRound^[k] (op, [])).1, (flushRound^[k] (op, [])).2, fun fuel hfuel => ?_,
        by simpa [flushTest] using hend, fun e he j hcov => ?_⟩
      · have h : op.flush fuel = some (flushRound^[k] (op, [])) := by
          rw [hflush]
          exact While.run_mono hfuel hrun
        exact ⟨h, close_of_flush h⟩
      · rw [op.endAt_of_started hinit] at hcov
        have hlt := hfits e he
        refine flush_covers hend he ?_ hcov
        rw [covers_iff] at hcov
        omega
  · have hinit : op.windowInitialized = false := by simpa using hinit
    have hnil := hfresh hinit
    have h : ∀ fuel, op.flush fuel = some (op, []) := by
      intro fuel
      unfold flush
      rw [hinit]
      rfl
    refine iff_of_true ⟨0, op, [], fun fuel _ => ⟨h fuel, close_of_flush (h fuel)⟩, hnil,
      fun e he => ?_⟩ fun e he => ?_
    · rw [hnil] at he
      cases he
    · rw [hnil] at he
      cases he

/-- The events 3 and 1 in windows of 10 every 4. -/
theorem flushLoop_small : (((create (timeWindow 10 4) (fun u es => (es.headD (eventAt 0), u)) ()
    none).onEvent (eventAt 3)).onEvent (eventAt 1)).CloseOk := by
  refine (flushLoop_iff (timeWindow 10 4) (fun u es => (es.headD (eventAt 0), u)) () none _ ?_).mpr
    ?_
  · exact @Reachable.consume _ _ _ _ _ _ _ 0 (.event (eventAt 1)) []
      (@Reachable.consume _ _ _ _ _ _ _ 0 (.event (eventAt 3)) [] .create rfl) rfl
  · unfold BufferFits
    decide

/-- With an event at `2^64 - 1` the flush never ends: no window start gets past it. -/
theorem flushLoop_never_ends : ∃ op : TimeWindowPhysicalOperator Unit,
    Reachable (timeWindow 1 1) (fun u es => (es.headD (eventAt 0), u)) () none op ∧
      ∀ fuel, op.flush fuel = none := by
  have hop := @Reachable.consume _ (timeWindow 1 1) (fun (u : Unit) es => (es.headD (eventAt 0), u))
    () none _ _ 0 (.event (eventAt 0xffffffffffffffff)) [] .create rfl
  refine ⟨_, hop, fun fuel => ?_⟩
  rw [Option.eq_none_iff_forall_ne_some]
  intro r hr
  obtain ⟨k, -, hk, hend, -⟩ := While.run_pure_iff.mp
    (show While.run flushTest (While.pure flushRound) fuel (_, []) = some r from hr)
  rw [hk] at hend
  have hfits := (flush_ends_iff (hop.counter.2 rfl)).mp ⟨k, hend⟩
  exact absurd (hfits (eventAt 0xffffffffffffffff) (List.mem_singleton.mpr rfl)) (by decide)

end TimeWindowPhysicalOperator

end Xtream
