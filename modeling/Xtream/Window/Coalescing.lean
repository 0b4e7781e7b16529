import Xtream.Window.Loops

/-!
# Watermarks without an event in between

Two watermarks make the rounds that the later one makes alone. In between there is a cleanup: it
removes only events that are before every window still to fire, so the rounds after it do not see
the difference.

* `iterate_tidy`: rounds on a buffer that has been cleaned up;
* `watermarks_coalesce`: two watermarks do what the maximum of them does.
-/

namespace Xtream

open SlidingWindow

namespace TimeWindowPhysicalOperator

variable {U : Type}

/-- A firing looks at the content of its window only. -/
theorem fire_congr {op : TimeWindowPhysicalOperator U} {b : EventBuffer}
    (h : content time op.spec.size.toNat op.nextWindowEnd.toNat b.events =
      content time op.spec.size.toNat op.nextWindowEnd.toNat op.buffer.events) :
    fire { op with buffer := b } = ({ op.fire.1 with buffer := b }, op.fire.2) := by
  unfold fire
  simp only [query_content, h]
  split <;> rfl

/-- The firings of earlier rounds stay in front. -/
theorem iterate_watermarkStep_fst (s : LoopState U) (k : Nat) :
    watermarkStep^[k] s = ((watermarkStep^[k] (s.1, [])).1,
      s.2 ++ (watermarkStep^[k] (s.1, [])).2) := by
  induction k with
  | zero => simp
  | succ k ih =>
    rw [Function.iterate_succ_apply', Function.iterate_succ_apply', ih]
    simp [watermarkStep]

/-- Rounds after a cleanup make the same firings. -/
theorem iterate_tidy (op : TimeWindowPhysicalOperator U) (k : Nat) (h : op.endAfter k < 2 ^ 64) :
    watermarkStep^[k] (op.tidy, []) =
      ({ (watermarkStep^[k] (op, [])).1 with buffer := op.tidy.buffer },
        (watermarkStep^[k] (op, [])).2) := by
  induction k with
  | zero => rfl
  | succ k ih =>
    have hlt : op.endAfter k < 2 ^ 64 := (op.endAfter_mono (Nat.le_succ k)).trans_lt h
    obtain ⟨c, N, fs, hk, hN, -⟩ := iterate_watermarkStep op [] k hlt
    have hle : op.nextWindowEnd.toNat ≤ N.toNat := by
      rw [hN]
      exact Nat.le_add_right _ _
    rw [Function.iterate_succ_apply', Function.iterate_succ_apply', ih hlt, hk, watermarkStep,
      watermarkStep]
    -- the cleanup has removed events before the first window, and this one is no earlier
    have hfire := @fire_congr U { op with captured := c, nextWindowEnd := N } op.tidy.buffer (by
      show content time _ _ (op.moveTo op.nextWindowEnd op.captured).buffer.events = _
      rw [moveTo_events]
      exact content_filter (Nat.sub_le_sub_right hle _) _)
    simp only [hfire]

/-- A cleanup makes an earlier one superfluous. -/
theorem tidy_of_tidy {op op' : TimeWindowPhysicalOperator U} (hbuffer : op'.buffer = op.buffer)
    (hspec : op'.spec = op.spec) (hle : op.nextWindowEnd.toNat ≤ op'.nextWindowEnd.toNat) :
    tidy { op' with buffer := op.tidy.buffer } = op'.tidy := by
  have hb : (tidy { op' with buffer := op.tidy.buffer }).buffer = op'.tidy.buffer := by
    have hmove := congrArg (·.buffer) (moveTo_moveTo op op.captured op'.captured hle)
    simpa [tidy, moveTo, hbuffer, hspec] using hmove
  calc tidy { op' with buffer := op.tidy.buffer }
      = { op'.tidy with buffer := (tidy { op' with buffer := op.tidy.buffer }).buffer } := rfl
    _ = op'.tidy := by rw [hb]

/-- The rounds that are left for a second watermark. -/
theorem rounds_after {op op' : TimeWindowPhysicalOperator U} (hadv : 0 < op.spec.advance.toNat)
    (hspec : op'.spec = op.spec) {m : Nat} (hend : op'.nextWindowEnd.toNat = op.endAfter m)
    (wm : Watermark) : op'.rounds wm = op.rounds wm - m := by
  have hadv' : 0 < op'.spec.advance.toNat := hspec ▸ hadv
  have hafter : ∀ j, op'.endAfter j = op.endAfter (m + j) := by
    intro j
    rw [endAfter, hend, hspec, endAfter, endAfter, Nat.add_mul, Nat.add_assoc]
  refine eq_of_forall_lt_iff fun j => ?_
  rw [lt_rounds_iff hadv', hafter, ← lt_rounds_iff hadv]
  omega

theorem rounds_max {op : TimeWindowPhysicalOperator U} (hadv : 0 < op.spec.advance.toNat)
    {w₁ w₂ wm : Watermark} (h : wm.timestamp = stdMax w₁.timestamp w₂.timestamp) :
    op.rounds wm = max (op.rounds w₁) (op.rounds w₂) := by
  refine eq_of_forall_lt_iff fun j => ?_
  rw [lt_rounds_iff hadv, h, toNat_stdMax, lt_max_iff, lt_rounds_iff hadv, lt_rounds_iff hadv]
  omega

/-- A watermark that makes fewer rounds does not wrap either. -/
theorem WatermarkNoWrap.of_rounds_le {op : TimeWindowPhysicalOperator U}
    (hadv : 0 < op.spec.advance.toNat) {w wm : Watermark} (h : op.WatermarkNoWrap wm)
    (hle : op.rounds w ≤ op.rounds wm) : op.WatermarkNoWrap w :=
  (watermarkNoWrap_iff hadv).mpr fun hinit =>
    (op.endAfter_mono hle).trans_lt ((watermarkNoWrap_iff hadv).mp h hinit)

/-- The loop and the cleanup of two watermarks. -/
theorem onWatermark_coalesce {op : TimeWindowPhysicalOperator U}
    (hadv : 0 < op.spec.advance.toNat) {w₁ w₂ wm : Watermark}
    (hwm : wm.timestamp = stdMax w₁.timestamp w₂.timestamp) (hnw : op.WatermarkNoWrap wm) :
    ∃ op₁ fs₁ op₂ fs₂, ∀ fuel, op.rounds wm ≤ fuel →
      op.onWatermark fuel w₁ = some (op₁, fs₁) ∧ op₁.onWatermark fuel w₂ = some (op₂, fs₂) ∧
        op.onWatermark fuel wm = some (op₂, fs₁ ++ fs₂) := by
  by_cases hinit : op.windowInitialized = true
  · have hmax := rounds_max hadv hwm
    generalize hm : op.rounds w₁ = m at hmax
    have hle : op.rounds w₁ ≤ op.rounds wm := by omega
    have hlt := (watermarkNoWrap_iff hadv).mp hnw hinit
    have hlt₁ : op.endAfter m < 2 ^ 64 := (op.endAfter_mono (by omega)).trans_lt hlt
    -- the rounds of the first watermark
    obtain ⟨c, N, fs₁, hk, hN, -⟩ := iterate_watermarkStep op [] m hlt₁
    rw [List.nil_append] at hk
    let x : TimeWindowPhysicalOperator U := { op with captured := c, nextWindowEnd := N }
    have hrun₁ : ∀ fuel, op.rounds wm ≤ fuel → op.onWatermark fuel w₁ = some (x.tidy, fs₁) := by
      intro fuel hfuel
      rw [onWatermark_eq hadv (hnw.of_rounds_le hadv hle) hinit (hle.trans hfuel), hm, hk]
    -- those that are left for the second one
    have hadvx : 0 < x.tidy.spec.advance.toNat := hadv
    have hrounds : x.tidy.rounds w₂ = op.rounds w₂ - m :=
      @rounds_after U op x.tidy hadv rfl m hN w₂
    have hends : x.endAfter (op.rounds w₂ - m) = op.endAfter (op.rounds wm) := by
      rw [endAfter, show x.nextWindowEnd.toNat = op.endAfter m from hN, endAfter, endAfter,
        Nat.add_assoc, show x.spec.advance = op.spec.advance from rfl, ← Nat.add_mul]
      congr 2
      omega
    have hlt₂ : x.endAfter (op.rounds w₂ - m) < 2 ^ 64 := hends ▸ hlt
    have hnw₂ : x.tidy.WatermarkNoWrap w₂ := by
      refine (watermarkNoWrap_iff hadvx).mpr fun _ => ?_
      rw [hrounds]
      exact hlt₂
    obtain ⟨c', N', fs₂, hk', hN', -⟩ := iterate_watermarkStep x [] (op.rounds w₂ - m) hlt₂
    rw [List.nil_append] at hk'
    have htidy : tidy { x with captured := c', nextWindowEnd := N', buffer := x.tidy.buffer } =
        tidy { x with captured := c', nextWindowEnd := N' } :=
      @tidy_of_tidy U x { x with captured := c', nextWindowEnd := N' } rfl rfl (by
        show N.toNat ≤ N'.toNat
        rw [hN', endAfter]
        exact Nat.le_add_right _ _)
    refine ⟨x.tidy, fs₁, tidy { x with captured := c', nextWindowEnd := N' }, fs₂,
      fun fuel hfuel => ⟨hrun₁ fuel hfuel, ?_, ?_⟩⟩
    · rw [onWatermark_eq hadvx hnw₂ hinit (by omega), hrounds, iterate_tidy x _ hlt₂, hk', htidy]
    · have hsplit : op.rounds wm = (op.rounds w₂ - m) + m := by omega
      rw [onWatermark_eq hadv hnw hinit hfuel, hsplit, Function.iterate_add_apply, hk,
        iterate_watermarkStep_fst, hk']
  · -- before the first event a watermark does nothing
    have hnone : ∀ fuel w, op.onWatermark fuel w = some (op, []) := by
      intro fuel w
      unfold onWatermark
      rw [if_pos (by simpa using hinit)]
    exact ⟨op, [], op, [], fun fuel _ => ⟨hnone fuel w₁, hnone fuel w₂, hnone fuel wm⟩⟩

theorem execute_watermark {op op' : TimeWindowPhysicalOperator U} {fuel : Nat} {wm : Watermark}
    {fs : List Firing} (h : op.onWatermark fuel wm = some (op', fs)) :
    op.execute fuel (.watermark wm) = some (op', op.outputs fs) := by
  unfold execute
  rw [show op.consume fuel (.watermark wm) = _ from h]
  rfl

/-- **Watermarks coalesce**: one after the other, with no event in between, two watermarks make the
calls and leave the state that the greater one alone does. -/
theorem watermarks_coalesce (op : TimeWindowPhysicalOperator U) (hadv : 1 ≤ op.spec.advance.toNat)
    (w₁ w₂ wm : Watermark) (hwm : wm.timestamp = stdMax w₁.timestamp w₂.timestamp)
    (hnw : op.WatermarkNoWrap wm) :
    ∃ n op₁ outs₁ op₂ outs₂, ∀ fuel, n ≤ fuel →
      op.execute fuel (.watermark w₁) = some (op₁, outs₁) ∧
      op₁.execute fuel (.watermark w₂) = some (op₂, outs₂) ∧
      op.execute fuel (.watermark wm) = some (op₂, outs₁ ++ outs₂) := by
  obtain ⟨op₁, fs₁, op₂, fs₂, hrun⟩ := onWatermark_coalesce hadv hwm hnw
  have hch : op₁.outputChannel = op.outputChannel :=
    consume_outputChannel (x := .watermark w₁) (hrun _ (Nat.le_refl _)).1
  have houts : op.outputs (fs₁ ++ fs₂) = op.outputs fs₁ ++ op₁.outputs fs₂ := by
    unfold outputs
    rw [hch, List.flatMap_append]
  refine ⟨op.rounds wm, op₁, op.outputs fs₁, op₂, op₁.outputs fs₂, fun fuel hfuel => ?_⟩
  obtain ⟨h₁, h₂, hboth⟩ := hrun fuel hfuel
  rw [← houts]
  exact ⟨execute_watermark h₁, execute_watermark h₂, execute_watermark hboth⟩

/-- The watermarks 7 and 3 after the event 1, in windows of 4 every 2. -/
theorem watermarks_coalesce_small : ∃ n op₁ outs₁ op₂ outs₂, ∀ fuel, n ≤ fuel →
    ((create (timeWindow 4 2) (fun u es => (es.headD (eventAt 0), u)) () none).onEvent
      (eventAt 1)).execute fuel (.watermark ⟨7, 0⟩) = some (op₁, outs₁) ∧
    op₁.execute fuel (.watermark ⟨3, 0⟩) = some (op₂, outs₂) ∧
    ((create (timeWindow 4 2) (fun u es => (es.headD (eventAt 0), u)) () none).onEvent
      (eventAt 1)).execute fuel (.watermark ⟨7, 0⟩) = some (op₂, outs₁ ++ outs₂) := by
  refine watermarks_coalesce _ (by decide) ⟨7, 0⟩ ⟨3, 0⟩ ⟨7, 0⟩ (by decide) ?_
  exact (watermarkNoWrap_iff (by decide)).mpr (by decide)

end TimeWindowPhysicalOperator

end Xtream
