import Xtream.Operators.TimeWindow
import Xtream.Lib.ModularCounter

/-!
# The two loops of the time window

Closed forms of the firing loop of `on_watermark` and the flush loop of `close`, as long as the
window end, counted without wrapping, stays a 64-bit number (`WatermarkNoWrap`, `FlushNoWrap`).

* `onWatermark_spec`: the windows up to the watermark fire, in order, on the buffered events; the
  counter passes the watermark; the events before the next window go.
* `flush_spec`: windows fire until no buffered event is left; the loop ends.
* `watermarkNoWrap_iff`, `flushNoWrap_of_bound`: when no addition wraps, in terms of the counter,
  the timestamps and the specification.
-/

namespace Xtream

open SlidingWindow

namespace TimeWindowPhysicalOperator

variable {U : Type}

/-- The counter after `k` more windows, counted without wrapping. -/
def endAfter (op : TimeWindowPhysicalOperator U) (k : Nat) : Nat :=
  op.nextWindowEnd.toNat + k * op.spec.advance.toNat

theorem endAfter_zero (op : TimeWindowPhysicalOperator U) :
    op.endAfter 0 = op.nextWindowEnd.toNat := by simp [endAfter]

theorem endAfter_zero_lt (op : TimeWindowPhysicalOperator U) : op.endAfter 0 < 2 ^ 64 := by
  rw [endAfter_zero]
  exact op.nextWindowEnd.toNat_lt

theorem endAfter_succ (op : TimeWindowPhysicalOperator U) (k : Nat) :
    op.endAfter (k + 1) = op.endAfter k + op.spec.advance.toNat := by
  unfold endAfter
  rw [Nat.succ_mul]
  omega

theorem endAfter_mono (op : TimeWindowPhysicalOperator U) {j k : Nat} (h : j ≤ k) :
    op.endAfter j ≤ op.endAfter k :=
  Nat.add_le_add_left (Nat.mul_le_mul_right _ h) _

/-- The nonempty ones of the next `m` windows on the buffered events. -/
def windows (op : TimeWindowPhysicalOperator U) (m : Nat) : List (Nat × List (Event Record)) :=
  windowsFrom time op.spec.size.toNat op.spec.advance.toNat op.buffer.events
    op.nextWindowEnd.toNat m

/-- One window more: the next one, at the counter after `k`. -/
theorem windows_succ (op : TimeWindowPhysicalOperator U) (k : Nat) :
    op.windows (k + 1) = op.windows k ++ windowsFrom time op.spec.size.toNat
      op.spec.advance.toNat op.buffer.events (op.endAfter k) 1 :=
  windowsFrom_add op.buffer.events op.nextWindowEnd.toNat k 1

theorem toNat_windowStart (size windowEnd : UInt64) :
    (windowStart size windowEnd).toNat = windowEnd.toNat - size.toNat := by
  unfold windowStart
  split
  · rename_i h
    have hle : size ≤ windowEnd := UInt64.le_of_lt h
    rw [UInt64.toNat_sub_of_le _ _ hle]
  · rename_i h
    rw [gt_iff_lt, UInt64.lt_iff_toNat_lt] at h
    rw [UInt64.toNat_zero]
    omega

theorem query_content (b : EventBuffer) (size windowEnd : UInt64) :
    b.query (windowStart size windowEnd) windowEnd =
      content time size.toNat windowEnd.toNat b.events := by
  rw [EventBuffer.query_eq, content]
  refine List.filter_congr fun e _ => ?_
  rw [Bool.eq_iff_iff, decide_eq_true_iff, decide_eq_true_iff, UInt64.le_iff_toNat_le,
    UInt64.lt_iff_toNat_lt, toNat_windowStart]
  exact Iff.rfl

theorem cleanup_events (b : EventBuffer) (size windowEnd : UInt64) :
    (b.cleanupBefore (windowStart size windowEnd)).events =
      b.events.filter fun e => windowEnd.toNat - size.toNat ≤ time e := by
  rw [EventBuffer.cleanupBefore_events]
  refine List.filter_congr fun e _ => ?_
  rw [Bool.eq_iff_iff, decide_eq_true_iff, decide_eq_true_iff, UInt64.le_iff_toNat_le,
    toNat_windowStart]
  exact Iff.rfl

/-- The operator with its counter at `N` and without the events before the window that ends
there. -/
def moveTo (op : TimeWindowPhysicalOperator U) (N : UInt64) (c : U) :
    TimeWindowPhysicalOperator U :=
  { op with
    captured := c
    nextWindowEnd := N
    buffer := op.buffer.cleanupBefore (windowStart op.spec.size N) }

section MoveTo

variable (op : TimeWindowPhysicalOperator U) (N : UInt64) (c : U)

@[simp] theorem moveTo_spec : (op.moveTo N c).spec = op.spec := rfl
@[simp] theorem moveTo_nextWindowEnd : (op.moveTo N c).nextWindowEnd = N := rfl
@[simp] theorem moveTo_windowInitialized :
    (op.moveTo N c).windowInitialized = op.windowInitialized := rfl
@[simp] theorem moveTo_outputChannel : (op.moveTo N c).outputChannel = op.outputChannel := rfl
theorem moveTo_events : (op.moveTo N c).buffer.events =
    op.buffer.events.filter fun e => N.toNat - op.spec.size.toNat ≤ time e := cleanup_events _ _ _

end MoveTo

/-- One firing. The current window fires if it has events; only the function's state changes. -/
theorem fire_spec (op : TimeWindowPhysicalOperator U) :
    ∃ c fs, op.fire = ({ op with captured := c }, fs) ∧ fs.map Firing.call = op.windows 1 := by
  unfold fire
  simp only [query_content]
  split
  · rename_i h
    refine ⟨op.captured, [], rfl, ?_⟩
    rw [List.isEmpty_iff] at h
    simp [windows, windowsFrom, h]
  · rename_i h
    refine ⟨_, _, rfl, ?_⟩
    rw [List.isEmpty_iff] at h
    simp [windows, windowsFrom, h, Firing.call]

/-! ## The output channel -/

/-- The operator with what `set_output_channel` has set. -/
def attach (outputChannel : Option ChannelId) (op : TimeWindowPhysicalOperator U) :
    TimeWindowPhysicalOperator U := { op with outputChannel }

theorem attach_self (op : TimeWindowPhysicalOperator U) : op.attach op.outputChannel = op := rfl

/-- The loops do not look at the output channel. -/
theorem fire_attach (oc : Option ChannelId) (op : TimeWindowPhysicalOperator U) :
    (op.attach oc).fire = (op.fire.1.attach oc, op.fire.2) := by
  unfold fire
  by_cases h : (op.buffer.query (windowStart op.spec.size op.nextWindowEnd)
      op.nextWindowEnd).isEmpty = true
  · rw [if_pos h]
    exact if_pos h
  · rw [if_neg h]
    exact if_neg h

theorem onWatermark_attach (oc : Option ChannelId) (fuel : Nat)
    (op : TimeWindowPhysicalOperator U) (wm : Watermark) :
    (op.attach oc).onWatermark fuel wm =
      (op.onWatermark fuel wm).map fun r => (r.1.attach oc, r.2) := by
  unfold onWatermark
  have hinit : (op.attach oc).windowInitialized = op.windowInitialized := rfl
  rw [hinit]
  split
  · rfl
  · have hrun := @While.run_map (LoopState U) (fun s => decide (s.1.nextWindowEnd ≤ wm.timestamp))
      (watermarkRound wm) (fun s => (s.1.attach oc, s.2)) (fun _ => rfl) (fun s => by
        unfold watermarkRound
        rw [fire_attach]
        by_cases h : s.1.fire.1.nextWindowEnd > wm.timestamp
        · rw [if_pos h, if_pos (show (s.1.fire.1.attach oc).nextWindowEnd > wm.timestamp from h)]
          rfl
        · rw [if_neg h, if_neg (show ¬(s.1.fire.1.attach oc).nextWindowEnd > wm.timestamp from h)]
          rfl) fuel (op, [])
    rw [hrun]
    cases While.run (fun s : LoopState U => decide (s.1.nextWindowEnd ≤ wm.timestamp))
      (watermarkRound wm) fuel (op, []) <;> rfl

theorem consume_attach (oc : Option ChannelId) (fuel : Nat) (op : TimeWindowPhysicalOperator U)
    (x : StreamElement) : (op.attach oc).consume fuel x =
      (op.consume fuel x).map fun r => (r.1.attach oc, r.2) := by
  cases x with
  | event e =>
    unfold consume onEvent attach
    cases op.windowInitialized <;> rfl
  | watermark wm => exact onWatermark_attach oc fuel op wm

theorem flush_attach (oc : Option ChannelId) (fuel : Nat) (op : TimeWindowPhysicalOperator U) :
    (op.attach oc).flush fuel = (op.flush fuel).map fun r => (r.1.attach oc, r.2) := by
  unfold flush
  have hinit : (op.attach oc).windowInitialized = op.windowInitialized := rfl
  rw [hinit]
  split
  · exact @While.run_map (LoopState U) (fun s => !s.1.buffer.empty) (While.pure flushRound)
      (fun s => (s.1.attach oc, s.2)) (fun _ => rfl) (fun s => by
        unfold While.pure flushRound
        rw [fire_attach]
        rfl) fuel (op, [])
  · rfl

/-- Neither loop changes the output channel. -/
theorem consume_outputChannel {fuel : Nat} {op : TimeWindowPhysicalOperator U} {x : StreamElement}
    {r : LoopState U} (h : op.consume fuel x = some r) :
    r.1.outputChannel = op.outputChannel := by
  have hsame := consume_attach op.outputChannel fuel op x
  rw [attach_self, h, Option.map_some, Option.some.injEq] at hsame
  rw [hsame]
  rfl

theorem flush_outputChannel {fuel : Nat} {op : TimeWindowPhysicalOperator U} {r : LoopState U}
    (h : op.flush fuel = some r) : r.1.outputChannel = op.outputChannel := by
  have hsame := flush_attach op.outputChannel fuel op
  rw [attach_self, h, Option.map_some, Option.some.injEq] at hsame
  rw [hsame]
  rfl

/-! ## Fuel -/

theorem onWatermark_mono {n m : Nat} (hnm : n ≤ m) {op : TimeWindowPhysicalOperator U}
    {wm : Watermark} {r : LoopState U} (h : op.onWatermark n wm = some r) :
    op.onWatermark m wm = some r := by
  unfold onWatermark at h ⊢
  split at h
  · rename_i hinit
    rw [if_pos hinit]
    exact h
  · rename_i hinit
    rw [if_neg hinit]
    obtain ⟨s, hs, hr⟩ := Option.bind_eq_some_iff.mp h
    rw [While.run_mono hnm hs]
    exact hr

theorem consume_mono {n m : Nat} (hnm : n ≤ m) {op : TimeWindowPhysicalOperator U}
    {x : StreamElement} {r : LoopState U} (h : op.consume n x = some r) :
    op.consume m x = some r := by
  cases x with
  | event e => exact h
  | watermark wm => exact onWatermark_mono hnm h

theorem flush_mono {n m : Nat} (hnm : n ≤ m) {op : TimeWindowPhysicalOperator U}
    {r : LoopState U} (h : op.flush n = some r) : op.flush m = some r := by
  unfold flush at h ⊢
  split at h
  · rename_i hinit
    rw [if_pos hinit]
    exact While.run_mono hnm h
  · rename_i hinit
    rw [if_neg hinit]
    exact h

/-! ## The loop of a watermark -/

/-- A round of the watermark loop whose test has passed. -/
def watermarkStep (s : LoopState U) : LoopState U :=
  let r := s.1.fire
  ({ r.1 with nextWindowEnd := r.1.nextWindowEnd + r.1.spec.advance }, s.2 ++ r.2)

/-- The test of the watermark loop. -/
abbrev watermarkTest (wm : Watermark) (s : LoopState U) : Bool :=
  s.1.nextWindowEnd ≤ wm.timestamp

/-- The guard in the body is never taken: the test has passed with the same counter. -/
theorem watermarkRound_eq {wm : Watermark} {s : LoopState U} (h : watermarkTest wm s = true) :
    watermarkRound wm s = While.pure watermarkStep s := by
  obtain ⟨c, fs, hf, -⟩ := fire_spec s.1
  have hle : ¬ s.1.nextWindowEnd > wm.timestamp := by
    simpa [watermarkTest] using h
  unfold watermarkRound While.pure watermarkStep
  simp only [hf]
  rw [if_neg hle]

theorem run_watermarkRound (wm : Watermark) (fuel : Nat) (s : LoopState U) :
    While.run (watermarkTest wm) (watermarkRound wm) fuel s =
      While.run (watermarkTest wm) (While.pure watermarkStep) fuel s :=
  While.run_congr (fun _ h => watermarkRound_eq h) fuel s

/-- After `k` rounds, wrapping or not: only the counter and the function's state have changed. -/
theorem iterate_watermarkStep_value (op : TimeWindowPhysicalOperator U) (fs : List Firing)
    (k : Nat) :
    ∃ c N fs', watermarkStep^[k] (op, fs) =
        ({ op with captured := c, nextWindowEnd := N }, fs') ∧
      N.toNat = ModularCounter.value op.nextWindowEnd.toNat op.spec.advance.toNat (2 ^ 64) k := by
  induction k with
  | zero =>
    refine ⟨op.captured, op.nextWindowEnd, fs, rfl, ?_⟩
    rw [ModularCounter.value, Nat.zero_mul, Nat.add_zero, Nat.mod_eq_of_lt op.nextWindowEnd.toNat_lt]
  | succ k ih =>
    obtain ⟨c, N, fs', hk, hN⟩ := ih
    obtain ⟨c', fs₁, hf, -⟩ := fire_spec { op with captured := c, nextWindowEnd := N }
    refine ⟨c', N + op.spec.advance, fs' ++ fs₁, ?_, ?_⟩
    · rw [Function.iterate_succ_apply', hk, watermarkStep]
      simp [hf]
    · rw [ModularCounter.value_succ, UInt64.toNat_add, hN]

/-- What a watermark leaves, wrapping or not: the operator as it was before the first event, or
else moved by some number of windows. -/
theorem onWatermark_result {op op' : TimeWindowPhysicalOperator U} {fuel : Nat} {wm : Watermark}
    {fs : List Firing} (h : op.onWatermark fuel wm = some (op', fs)) :
    (op.windowInitialized = false ∧ op' = op) ∨
      (op.windowInitialized = true ∧ ∃ N c k, op' = op.moveTo N c ∧ N.toNat =
        ModularCounter.value op.nextWindowEnd.toNat op.spec.advance.toNat (2 ^ 64) k) := by
  unfold onWatermark at h
  split at h
  · rename_i hinit
    cases h
    exact Or.inl ⟨by simpa using hinit, rfl⟩
  · rename_i hinit
    obtain ⟨s, hs, hr⟩ := Option.bind_eq_some_iff.mp h
    rw [run_watermarkRound] at hs
    obtain ⟨k, -, rfl, -⟩ := While.run_pure_iff.mp hs
    obtain ⟨c, N, fs', hk, hN⟩ := iterate_watermarkStep_value op [] k
    rw [hk] at hr
    cases hr
    exact Or.inr ⟨by simpa using hinit, N, c, k, rfl, hN⟩

theorem onWatermark_keeps_spec {op op' : TimeWindowPhysicalOperator U} {fuel : Nat}
    {wm : Watermark} {fs : List Firing} (h : op.onWatermark fuel wm = some (op', fs)) :
    op'.spec = op.spec := by
  obtain ⟨-, rfl⟩ | ⟨-, N, c, k, rfl, -⟩ := onWatermark_result h
  · rfl
  · rfl

/-- After `k` rounds without a wrap: the counter has moved by `k * advance`, the windows passed
have fired, the buffer is as before. -/
theorem iterate_watermarkStep (op : TimeWindowPhysicalOperator U) (fs : List Firing) (k : Nat)
    (h : op.endAfter k < 2 ^ 64) :
    ∃ c N fs', watermarkStep^[k] (op, fs) =
        ({ op with captured := c, nextWindowEnd := N }, fs ++ fs') ∧
      N.toNat = op.endAfter k ∧ fs'.map Firing.call = op.windows k := by
  induction k with
  | zero => exact ⟨op.captured, op.nextWindowEnd, [], by simp, op.endAfter_zero.symm, rfl⟩
  | succ k ih =>
    rw [endAfter_succ] at h
    obtain ⟨c, N, fs', hk, hN, hc⟩ := ih (by omega)
    obtain ⟨c', fs₁, hf, hc₁⟩ := fire_spec { op with captured := c, nextWindowEnd := N }
    refine ⟨c', N + op.spec.advance, fs' ++ fs₁, ?_, ?_, ?_⟩
    · rw [Function.iterate_succ_apply', hk, watermarkStep]
      simp [hf]
    · rw [toNat_add_of_lt (by omega), hN, endAfter_succ]
    · rw [List.map_append, hc, hc₁, windows_succ op k, ← hN]
      rfl

/-- No window end wraps while the watermark is handled: as many rounds as the loop makes, the
counter, counted without wrapping, stays below `2^64`. -/
def WatermarkNoWrap (op : TimeWindowPhysicalOperator U) (wm : Watermark) : Prop :=
  op.windowInitialized = true → ∀ k,
    (∀ j < k, watermarkTest wm (watermarkStep^[j] (op, [])) = true) →
      op.endAfter k < 2 ^ 64

/-- The loop test after `j` rounds, as long as the counter does not wrap. -/
theorem watermarkTest_iterate {op : TimeWindowPhysicalOperator U} {wm : Watermark} {j : Nat}
    (h : op.endAfter j < 2 ^ 64) :
    watermarkTest wm (watermarkStep^[j] (op, [])) = true ↔
      op.endAfter j ≤ wm.timestamp.toNat := by
  obtain ⟨c, N, fs', hj, hN, -⟩ := iterate_watermarkStep op [] j h
  rw [hj, watermarkTest, decide_eq_true_iff, UInt64.le_iff_toNat_le, hN]

/-- The rounds that a watermark makes when nothing wraps. -/
def rounds (op : TimeWindowPhysicalOperator U) (wm : Watermark) : Nat :=
  if op.nextWindowEnd.toNat ≤ wm.timestamp.toNat then
    (wm.timestamp.toNat - op.nextWindowEnd.toNat) / op.spec.advance.toNat + 1
  else 0

theorem lt_rounds_iff {op : TimeWindowPhysicalOperator U} (hadv : 0 < op.spec.advance.toNat)
    {wm : Watermark} {j : Nat} :
    j < op.rounds wm ↔ op.endAfter j ≤ wm.timestamp.toNat := by
  unfold rounds endAfter
  split
  · rename_i h
    rw [Nat.lt_succ_iff, Nat.le_div_iff_mul_le hadv]
    omega
  · rename_i h
    have := Nat.zero_le (j * op.spec.advance.toNat)
    omega

/-- The loop passes the tests before round `k` iff `k` is at most the number of rounds, when the
counter does not wrap up to there. -/
theorem tests_iff {op : TimeWindowPhysicalOperator U} (hadv : 0 < op.spec.advance.toNat)
    {wm : Watermark} {k : Nat} (hk : ∀ j < k, op.endAfter j < 2 ^ 64) :
    (∀ j < k, watermarkTest wm (watermarkStep^[j] (op, [])) = true) ↔ k ≤ op.rounds wm := by
  constructor
  · intro h
    cases k with
    | zero => exact Nat.zero_le _
    | succ k =>
      have := (watermarkTest_iterate (hk k (by omega))).mp (h k (by omega))
      exact (lt_rounds_iff hadv).mpr this
  · intro h j hj
    exact (watermarkTest_iterate (hk j hj)).mpr ((lt_rounds_iff hadv).mp (by omega))

/-- No window end wraps iff the first window end after the watermark is a 64-bit number. -/
theorem watermarkNoWrap_iff {op : TimeWindowPhysicalOperator U} (hadv : 0 < op.spec.advance.toNat)
    {wm : Watermark} : op.WatermarkNoWrap wm ↔
      (op.windowInitialized = true → op.endAfter (op.rounds wm) < 2 ^ 64) := by
  refine forall_congr' fun _ => ?_
  constructor
  · intro h
    have key : ∀ k ≤ op.rounds wm, op.endAfter k < 2 ^ 64 := by
      intro k
      induction k using Nat.strongRecOn with
      | _ k ih => exact fun hk => h k ((tests_iff hadv fun j hj => ih j hj (by omega)).mpr hk)
    exact key _ (Nat.le_refl _)
  · intro h k hk
    induction k with
    | zero => exact op.endAfter_zero_lt
    | succ k ih =>
      have hk' := ih fun j hj => hk j (by omega)
      have hle := (lt_rounds_iff hadv).mpr ((watermarkTest_iterate hk').mp (hk k (by omega)))
      have := op.endAfter_mono (show k + 1 ≤ op.rounds wm from hle)
      omega

/-- The operator without the events before its next window. -/
def tidy (op : TimeWindowPhysicalOperator U) : TimeWindowPhysicalOperator U :=
  op.moveTo op.nextWindowEnd op.captured

/-- The rounds of a watermark, when no window end wraps: as many as there are windows up to it,
and then the cleanup. -/
theorem onWatermark_eq {op : TimeWindowPhysicalOperator U} (hadv : 0 < op.spec.advance.toNat)
    {wm : Watermark} (hnw : op.WatermarkNoWrap wm) (hinit : op.windowInitialized = true)
    {fuel : Nat} (hfuel : op.rounds wm ≤ fuel) :
    op.onWatermark fuel wm = some ((watermarkStep^[op.rounds wm] (op, [])).1.tidy,
      (watermarkStep^[op.rounds wm] (op, [])).2) := by
  have hlt := (watermarkNoWrap_iff hadv).mp hnw hinit
  have hlt' : ∀ j ≤ op.rounds wm, op.endAfter j < 2 ^ 64 :=
    fun j hj => (op.endAfter_mono hj).trans_lt hlt
  have hrun : While.run (watermarkTest wm) (watermarkRound wm) fuel (op, []) =
      some (watermarkStep^[op.rounds wm] (op, [])) := by
    rw [run_watermarkRound, While.run_pure_iff]
    refine ⟨_, hfuel, rfl, ?_, fun j hj => ?_⟩
    · rw [← Bool.not_eq_true, watermarkTest_iterate hlt, ← lt_rounds_iff hadv]
      exact Nat.lt_irrefl _
    · exact (watermarkTest_iterate (hlt' j (by omega))).mpr ((lt_rounds_iff hadv).mp hj)
  unfold onWatermark
  rw [hinit]
  simp only [Bool.not_true, Bool.false_eq_true, ↓reduceIte]
  rw [hrun]
  rfl

/-- What a watermark does, when no window end wraps: the loop ends, the windows up to the
watermark fire on the buffered events, the counter passes the watermark, and the buffer loses the
events before the next window. -/
theorem onWatermark_spec {op : TimeWindowPhysicalOperator U} (hadv : 0 < op.spec.advance.toNat)
    {wm : Watermark} (hnw : op.WatermarkNoWrap wm) (hinit : op.windowInitialized = true) :
    ∃ c N fs, (∀ fuel, op.rounds wm ≤ fuel → op.onWatermark fuel wm = some (op.moveTo N c, fs)) ∧
      N.toNat = op.endAfter (op.rounds wm) ∧
      fs.map Firing.call = op.windows (op.rounds wm) := by
  obtain ⟨c, N, fs, hk, hN, hc⟩ := iterate_watermarkStep op [] (op.rounds wm)
    ((watermarkNoWrap_iff hadv).mp hnw hinit)
  refine ⟨c, N, fs, fun fuel hfuel => ?_, hN, hc⟩
  rw [onWatermark_eq hadv hnw hinit hfuel, hk]
  rfl

/-! ## The flush loop -/

/-- The test of the flush loop. -/
abbrev flushTest (s : LoopState U) : Bool := !s.1.buffer.empty

theorem flushTest_eq {s : LoopState U} : flushTest s = true ↔ s.1.buffer.events ≠ [] := by
  simp [flushTest]

/-- One round of the flush, wrapping or not: the current window fires, the counter moves by
`advance`, and the buffer loses the events before the next window. -/
theorem flushRound_eq (op : TimeWindowPhysicalOperator U) (fs : List Firing) :
    ∃ c fs', flushRound (op, fs) =
        (op.moveTo (op.nextWindowEnd + op.spec.advance) c, fs ++ fs') ∧
      fs'.map Firing.call = op.windows 1 := by
  obtain ⟨c, fs', hf, hc⟩ := fire_spec op
  refine ⟨c, fs', ?_, hc⟩
  unfold flushRound
  simp only [hf]
  rfl

theorem moveTo_moveTo (op : TimeWindowPhysicalOperator U) {N N' : UInt64} (c c' : U)
    (h : N.toNat ≤ N'.toNat) : (op.moveTo N c).moveTo N' c' = op.moveTo N' c' := by
  have hb : ((op.moveTo N c).moveTo N' c').buffer = (op.moveTo N' c').buffer := by
    refine EventBuffer.ext ?_
    rw [moveTo_events, moveTo_events, moveTo_events, List.filter_filter]
    refine List.filter_congr fun e _ => ?_
    rw [Bool.eq_iff_iff, Bool.and_eq_true, decide_eq_true_iff, decide_eq_true_iff,
      decide_eq_true_iff]
    constructor
    · exact And.left
    · exact fun he => ⟨he, (Nat.sub_le_sub_right h _).trans he⟩
  calc (op.moveTo N c).moveTo N' c'
      = { op.moveTo N' c' with buffer := ((op.moveTo N c).moveTo N' c').buffer } := rfl
    _ = op.moveTo N' c' := by rw [hb]

/-- After `k + 1` rounds without a wrap. -/
theorem iterate_flushRound (op : TimeWindowPhysicalOperator U) (fs : List Firing) (k : Nat)
    (h : op.endAfter (k + 1) < 2 ^ 64) :
    ∃ c N fs', flushRound^[k + 1] (op, fs) = (op.moveTo N c, fs ++ fs') ∧
      N.toNat = op.endAfter (k + 1) ∧ fs'.map Firing.call = op.windows (k + 1) := by
  induction k with
  | zero =>
    rw [endAfter_succ, endAfter_zero] at h
    obtain ⟨c, fs', hr, hc⟩ := flushRound_eq op fs
    exact ⟨c, _, fs', hr, by rw [toNat_add_of_lt h, endAfter_succ, endAfter_zero], hc⟩
  | succ k ih =>
    rw [endAfter_succ] at h
    obtain ⟨c, N, fs', hk, hN, hc⟩ := ih (by omega)
    obtain ⟨c', fs₁, hr, hc₁⟩ := flushRound_eq (op.moveTo N c) (fs ++ fs')
    have hN' : (N + op.spec.advance).toNat = op.endAfter (k + 1) + op.spec.advance.toNat := by
      rw [toNat_add_of_lt (by omega), hN]
    refine ⟨c', N + op.spec.advance, fs' ++ fs₁, ?_, by rw [hN', ← endAfter_succ], ?_⟩
    · rw [Function.iterate_succ_apply', hk, hr, List.append_assoc]
      exact congrArg (·, _) (moveTo_moveTo op c c' (by
        show N.toNat ≤ (N + op.spec.advance).toNat
        omega))
    · -- the window that fires does not see the events the earlier rounds have removed
      have hwin : (op.moveTo N c).windows 1 = windowsFrom time op.spec.size.toNat
          op.spec.advance.toNat op.buffer.events N.toNat 1 := by
        refine windowsFrom_congr fun j hj => ?_
        rw [moveTo_events]
        exact content_filter (Nat.sub_le_sub_right (Nat.le_add_right _ _) _) _
      rw [List.map_append, hc, hc₁, hwin, hN, windows_succ op (k + 1)]

/-- No window end wraps while the buffer is flushed: as many rounds as the loop makes, the counter,
counted without wrapping, stays below `2^64`. -/
def FlushNoWrap (op : TimeWindowPhysicalOperator U) : Prop :=
  op.windowInitialized = true → ∀ k,
    (∀ j < k, flushTest (flushRound^[j] (op, [])) = true) → op.endAfter k < 2 ^ 64

/-- The loop test after `k + 1` rounds without a wrap: some event is not before the window. -/
theorem flushTest_iterate {op : TimeWindowPhysicalOperator U} {k : Nat}
    (h : op.endAfter (k + 1) < 2 ^ 64) :
    flushTest (flushRound^[k + 1] (op, [])) = true ↔
      ∃ e ∈ op.buffer.events, op.endAfter (k + 1) ≤ time e + op.spec.size.toNat := by
  obtain ⟨c, N, fs', hk, hN, -⟩ := iterate_flushRound op [] k h
  rw [hk, flushTest_eq, moveTo_events, hN, Ne, List.filter_eq_nil_iff]
  simp only [decide_eq_true_eq, not_forall, not_not, exists_prop]
  refine exists_congr fun e => and_congr_right fun _ => ?_
  omega

/-- No window end wraps when the first step does not and no event is within `size + advance` of the
top of the range. -/
theorem flushNoWrap_of_bound {op : TimeWindowPhysicalOperator U}
    (hfirst : op.buffer.events ≠ [] → op.endAfter 1 < 2 ^ 64)
    (hts : ∀ e ∈ op.buffer.events,
      time e + op.spec.size.toNat + op.spec.advance.toNat < 2 ^ 64) :
    op.FlushNoWrap := by
  intro _ k
  induction k with
  | zero => exact fun _ => op.endAfter_zero_lt
  | succ k ih =>
    intro hk
    have hk' := ih fun j hj => hk j (by omega)
    have hlast := hk k (by omega)
    cases k with
    | zero => exact hfirst (flushTest_eq.mp hlast)
    | succ k =>
      obtain ⟨e, he, hle⟩ := (flushTest_iterate hk').mp hlast
      have := hts e he
      rw [endAfter_succ]
      omega

/-- What the flush does, when no window end wraps: the loop ends with an empty buffer, and the
windows up to the last that covers a buffered event fire. -/
theorem flush_spec {op : TimeWindowPhysicalOperator U} (hadv : 0 < op.spec.advance.toNat)
    (hnw : op.FlushNoWrap) (hinit : op.windowInitialized = true) :
    ∃ k op' fs, (∀ fuel, k ≤ fuel → op.flush fuel = some (op', fs)) ∧
      op'.buffer.events = [] ∧ op'.spec = op.spec ∧ op'.nextWindowEnd.toNat = op.endAfter k ∧
      fs.map Firing.call = op.windows k ∧
      ∀ e ∈ op.buffer.events, time e + op.spec.size.toNat < op.endAfter k := by
  have hends : ∃ k, flushTest (flushRound^[k] (op, [])) = false := by
    by_contra hcon
    simp only [not_exists, Bool.not_eq_false] at hcon
    have hlt := hnw hinit (2 ^ 64) fun j _ => hcon j
    have := Nat.mul_le_mul_left (2 ^ 64) (show 1 ≤ op.spec.advance.toNat from hadv)
    unfold endAfter at hlt
    omega
  obtain ⟨fuel₀, r, hrun⟩ := While.ends_pure_iff.mpr hends
  obtain ⟨k, -, rfl, hfalse, hbefore⟩ := While.run_pure_iff.mp hrun
  have hlt := hnw hinit k hbefore
  have hflush : ∀ fuel, k ≤ fuel → op.flush fuel = some (flushRound^[k] (op, [])) := by
    intro fuel hfuel
    unfold flush
    rw [if_pos hinit]
    exact While.run_pure_iff.mpr ⟨k, hfuel, rfl, hfalse, hbefore⟩
  cases k with
  | zero =>
    have hnil : op.buffer.events = [] := by simpa [flushTest] using hfalse
    exact ⟨0, op, [], hflush, hnil, rfl, op.endAfter_zero.symm, rfl, by simp [hnil]⟩
  | succ k =>
    obtain ⟨c, N, fs, hk, hN, hc⟩ := iterate_flushRound op [] k hlt
    rw [hk] at hflush hfalse
    refine ⟨k + 1, _, fs, hflush, by simpa [flushTest] using hfalse, rfl, hN, hc, fun e he => ?_⟩
    have hnot := mt (flushTest_iterate hlt).mpr (by rw [hk]; simp [hfalse])
    simp only [not_exists, not_and, Nat.not_le] at hnot
    exact hnot e he

end TimeWindowPhysicalOperator

end Xtream
