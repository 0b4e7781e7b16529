import Xtream.Window.Termination

/-!
# When a run of the time window ends

A run ends iff all its loops do. The counter takes the multiples of the greatest common divisor of
`advance` and `2^64`, so the largest of them decides both about the watermarks and about the events.

* `onWatermark_ends_iff`: the loop of a watermark ends iff the counter gets past the watermark;
* `Reachable.consumeAll`: nothing that has arrived can be dropped if the flush would not get past
  it;
* `runToClose_ends_iff`: a run ends iff the counter gets past every event, when the watermarks are
  `advance` below `2^64`.
-/

namespace Xtream

/-- The counter of a time window gets past the event: the windows that cover it end below the
largest multiple of the greatest common divisor of `advance` and `2^64`, which is `2^64` itself for
an `advance` of 0. -/
def WindowSpec.Clears (spec : WindowSpec) (e : Event Record) : Prop :=
  time e + spec.size.toNat + Nat.gcd spec.advance.toNat (2 ^ 64) < 2 ^ 64

instance (spec : WindowSpec) (e : Event Record) : Decidable (spec.Clears e) :=
  inferInstanceAs (Decidable (_ < _))

namespace WindowSpec

variable {spec : WindowSpec} {e : Event Record}

theorem Clears.advance_pos (h : spec.Clears e) : 0 < spec.advance.toNat := by
  rw [Nat.pos_iff_ne_zero]
  intro hzero
  unfold Clears at h
  rw [hzero, Nat.gcd_zero_left] at h
  omega

theorem clears_of_lt (hadv : 0 < spec.advance.toNat)
    (h : time e + spec.size.toNat + spec.advance.toNat < 2 ^ 64) : spec.Clears e := by
  have hle := Nat.gcd_le_left (2 ^ 64) hadv
  unfold Clears
  omega

end WindowSpec

namespace TimeWindowPhysicalOperator

variable {U : Type}

/-- The loop of a watermark ends iff the counter gets past the watermark. -/
theorem onWatermark_ends_iff {op : TimeWindowPhysicalOperator U}
    (hinit : op.windowInitialized = true)
    (hdvd : Nat.gcd op.spec.advance.toNat (2 ^ 64) ∣ op.nextWindowEnd.toNat) (wm : Watermark) :
    (∃ fuel r, op.onWatermark fuel wm = some r) ↔
      wm.timestamp.toNat + Nat.gcd op.spec.advance.toNat (2 ^ 64) < 2 ^ 64 := by
  have hloop : (∃ fuel r, op.onWatermark fuel wm = some r) ↔
      While.Ends (watermarkTest wm) (While.pure watermarkStep) (op, []) := by
    unfold While.Ends onWatermark
    refine exists_congr fun fuel => ?_
    rw [hinit]
    simp only [Bool.not_true, Bool.false_eq_true, ↓reduceIte, ← run_watermarkRound]
    show (∃ r, Option.bind (While.run (watermarkTest wm) _ _ _) _ = some r) ↔ _
    cases While.run (watermarkTest wm) (watermarkRound wm) fuel (op, []) with
    | none => simp
    | some s => simp
  have htest : ∀ k, watermarkTest wm (watermarkStep^[k] (op, [])) = false ↔
      wm.timestamp.toNat < ModularCounter.value op.nextWindowEnd.toNat op.spec.advance.toNat
        (2 ^ 64) k := by
    intro k
    obtain ⟨c, N, fs, hk, hN⟩ := iterate_watermarkStep_value op [] k
    rw [hk, watermarkTest, decide_eq_false_iff_not, UInt64.le_iff_toNat_le, hN, Nat.not_le]
  have hg : Nat.gcd op.spec.advance.toNat (2 ^ 64) ≤ 2 ^ 64 := Nat.gcd_le_right _ (by decide)
  rw [hloop, While.ends_pure_iff]
  simp only [htest]
  constructor
  · rintro ⟨k, hk⟩
    have := ModularCounter.value_le (by decide) hdvd k
    omega
  · intro h
    obtain ⟨k, -, hk⟩ := ModularCounter.exists_value_eq (by decide) hdvd 0
    exact ⟨k, by omega⟩

section

variable {spec : WindowSpec} {func : U → List (Event Record) → Event Record × U} {captured : U}
  {outputChannel : Option ChannelId} {op op' : TimeWindowPhysicalOperator U} {fuel : Nat}

/-- What one element does to the buffer: an event is put into it, and a cleanup drops only
events that the counter has got past. -/
theorem Reachable.bufferFits_iff (h : Reachable spec func captured outputChannel op)
    {x : StreamElement} {fs : List Firing} (hrun : op.consume fuel x = some (op', fs)) :
    op'.BufferFits ↔ op.BufferFits ∧ ∀ e ∈ events [x], op.spec.Clears e := by
  show (∀ e ∈ op'.buffer.events, op'.spec.Clears e) ↔ (∀ e ∈ op.buffer.events, op.spec.Clears e) ∧ _
  rw [consume_keeps_spec hrun]
  cases x with
  | event e =>
    cases hrun
    rw [onEvent_buffer, events_cons_event, events_nil]
    simp only [(op.buffer.insert_perm e).mem_iff, List.forall_mem_cons]
    rw [and_iff_left (List.forall_mem_nil _)]
    exact and_comm
  | watermark wm =>
    rw [events_cons_watermark, events_nil, and_iff_left (List.forall_mem_nil _)]
    obtain ⟨-, rfl⟩ | ⟨hinit, N, c, k, rfl, hN⟩ := onWatermark_result hrun
    · exact Iff.rfl
    · rw [moveTo_events]
      refine ⟨fun hfits e he => ?_, fun hfits e he => hfits e (List.mem_of_mem_filter he)⟩
      by_cases hkept : N.toNat - op.spec.size.toNat ≤ time e
      · exact hfits e (List.mem_filter.mpr ⟨he, decide_eq_true hkept⟩)
      · -- a cleanup drops the event, so the counter is past it
        have := ModularCounter.value_le (by decide) (h.counter.2 hinit) k
        have := Nat.gcd_le_right op.spec.advance.toNat (show 0 < 2 ^ 64 by decide)
        unfold WindowSpec.Clears
        omega

theorem Reachable.consumeAll (h : Reachable spec func captured outputChannel op)
    {xs : List StreamElement} {tr : List (List Firing)}
    (hrun : op.consumeAll fuel xs = some (op', tr)) :
    Reachable spec func captured outputChannel op' ∧
      (op'.BufferFits ↔ op.BufferFits ∧ ∀ e ∈ events xs, spec.Clears e) := by
  induction xs generalizing op tr with
  | nil =>
    cases hrun
    exact ⟨h, (and_iff_left (List.forall_mem_nil _)).symm⟩
  | cons x xs ih =>
    obtain ⟨s, hs, hrun⟩ := Option.bind_eq_some_iff.mp hrun
    obtain ⟨r, hr, hrun⟩ := Option.bind_eq_some_iff.mp hrun
    cases hrun
    obtain ⟨hop', hfits⟩ := ih (h.consume hs) hr
    refine ⟨hop', hfits.trans ?_⟩
    rw [h.bufferFits_iff hs, h.spec_eq, and_assoc, ← List.forall_mem_append, ← events_append]
    exact Iff.rfl

/-- The flush ends iff the buffer fits, also before the first event. -/
theorem Reachable.flush_ends_iff (h : Reachable spec func captured outputChannel op) :
    (∃ fuel r, op.flush fuel = some r) ↔ op.BufferFits := by
  obtain ⟨hfresh, hdvd⟩ := h.counter
  unfold flush
  cases hinit : op.windowInitialized with
  | true =>
    simp only [↓reduceIte]
    rw [← TimeWindowPhysicalOperator.flush_ends_iff (hdvd hinit)]
    exact While.ends_pure_iff
  | false =>
    refine iff_of_true ⟨0, _, rfl⟩ fun e he => ?_
    rw [hfresh hinit] at he
    cases he

/-- The loops of the watermarks end, when `advance` is positive once there has been an event. -/
theorem Reachable.consumeAll_ends (h : Reachable spec func captured outputChannel op)
    (hpos : op.windowInitialized = true → 0 < spec.advance.toNat) {xs : List StreamElement}
    (hwm : ∀ wm ∈ watermarks xs, wm.timestamp.toNat + spec.advance.toNat < 2 ^ 64)
    (hes : ∀ e ∈ events xs, spec.Clears e) : ∃ fuel r, op.consumeAll fuel xs = some r := by
  induction xs generalizing op with
  | nil => exact ⟨0, _, rfl⟩
  | cons x xs ih =>
    -- the element itself, and what it leaves of the condition on `advance`
    have hone : ∃ fuel s, op.consume fuel x = some s ∧
        (s.1.windowInitialized = true → 0 < spec.advance.toNat) := by
      cases x with
      | event e =>
        exact ⟨0, _, rfl, fun _ => (hes e List.mem_cons_self).advance_pos⟩
      | watermark wm =>
        cases hinit : op.windowInitialized with
        | false =>
          refine ⟨0, (op, []), ?_, fun hinit' => hpos hinit'⟩
          show op.onWatermark 0 wm = _
          unfold onWatermark
          rw [hinit]
          rfl
        | true =>
          have hadv := hpos hinit
          have hle := Nat.gcd_le_left (2 ^ 64) hadv
          have hlt := hwm wm List.mem_cons_self
          obtain ⟨fuel, s, hs⟩ := (onWatermark_ends_iff hinit (h.counter.2 hinit) wm).mpr (by
            rw [h.spec_eq]
            omega)
          exact ⟨fuel, s, hs, fun _ => hadv⟩
    obtain ⟨n, s, hs, hpos'⟩ := hone
    have hwm' : ∀ wm ∈ watermarks xs, wm.timestamp.toNat + spec.advance.toNat < 2 ^ 64 := by
      intro wm hm
      cases x with
      | event e => exact hwm wm hm
      | watermark wm' => exact hwm wm (List.mem_cons_of_mem _ hm)
    have hes' : ∀ e ∈ events xs, spec.Clears e := by
      intro e he
      cases x with
      | event e' => exact hes e (List.mem_cons_of_mem _ he)
      | watermark wm => exact hes e he
    obtain ⟨m, r, hr⟩ := ih (h.consume hs) hpos' hwm' hes'
    refine ⟨max n m, (r.1, s.2 :: r.2), ?_⟩
    rw [TimeWindowPhysicalOperator.consumeAll, consume_mono (Nat.le_max_left n m) hs,
      Option.bind_eq_bind, Option.bind_some, consumeAll_mono (Nat.le_max_right n m) hr]
    rfl

end

/-- When a run ends: iff the counter gets past every event, when it gets past the watermarks. -/
theorem runToClose_ends_iff (spec : WindowSpec)
    (func : U → List (Event Record) → Event Record × U) (captured : U)
    (outputChannel : Option ChannelId) {xs : List StreamElement}
    (hwm : ∀ wm ∈ watermarks xs, wm.timestamp.toNat + spec.advance.toNat < 2 ^ 64) :
    (∃ fuel tr, (create spec func captured outputChannel).runToClose fuel xs = some tr) ↔
      ∀ e ∈ events xs, spec.Clears e := by
  have hcreate : Reachable spec func captured outputChannel _ := .create
  constructor
  · rintro ⟨fuel, tr, hrun⟩
    obtain ⟨r, hr, hrun⟩ := Option.bind_eq_some_iff.mp hrun
    obtain ⟨s, hs, -⟩ := Option.bind_eq_some_iff.mp hrun
    obtain ⟨hop, hfits⟩ := hcreate.consumeAll hr
    exact (hfits.mp (hop.flush_ends_iff.mp ⟨fuel, s, hs⟩)).2
  · intro hes
    obtain ⟨n, r, hr⟩ := hcreate.consumeAll_ends nofun hwm hes
    obtain ⟨hop, hfits⟩ := hcreate.consumeAll hr
    obtain ⟨m, s, hs⟩ := hop.flush_ends_iff.mpr (hfits.mpr ⟨List.forall_mem_nil _, hes⟩)
    refine ⟨max n m, r.2 ++ [s.2], ?_⟩
    rw [runToClose, consumeAll_mono (Nat.le_max_left n m) hr, Option.bind_eq_bind,
      Option.bind_some, flush_mono (Nat.le_max_right n m) hs]
    rfl

end TimeWindowPhysicalOperator

end Xtream
