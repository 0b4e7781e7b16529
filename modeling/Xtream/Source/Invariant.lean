import Xtream.Operators.Source

/-!
# The state of the source after some events

The source attempts a watermark after every `period` events. `Tracks` gives its state in terms of
the events forwarded so far: the running maximum, the events since the last attempt, and the last
watermark, which is the maximum at the last attempt less the lateness.

* `forward_spec`: an event keeps the invariant, and says which action it makes;
* `runToClose_eq`: the actions of a run over the events that the function yields.
-/

namespace Xtream

/-- The largest timestamp, 0 if there is none. -/
def maxTime (es : List (Event Record)) : Nat := (es.map time).foldl max 0

@[simp] theorem maxTime_nil : maxTime [] = 0 := rfl

@[simp] theorem maxTime_append (es fs : List (Event Record)) :
    maxTime (es ++ fs) = max (maxTime es) (maxTime fs) := by
  unfold maxTime
  rw [List.map_append, List.foldl_append]
  generalize (es.map time).foldl max 0 = m
  induction fs generalizing m with
  | nil => simp
  | cons e fs ih =>
    rw [List.map_cons, List.foldl_cons, List.foldl_cons, ih, ih (max 0 (time e))]
    omega

@[simp] theorem maxTime_singleton (e : Event Record) : maxTime [e] = time e := by
  simp [maxTime]

theorem time_le_maxTime {e : Event Record} {es : List (Event Record)} (h : e ∈ es) :
    time e ≤ maxTime es := by
  obtain ⟨es₁, es₂, rfl⟩ := List.append_of_mem h
  rw [maxTime_append, ← List.singleton_append, maxTime_append, maxTime_singleton]
  omega

theorem maxTime_lt {es : List (Event Record)} {bound : Nat} (hb : 0 < bound)
    (h : ∀ e ∈ es, time e < bound) : maxTime es < bound := by
  induction es with
  | nil => exact hb
  | cons e es ih =>
    rw [List.forall_mem_cons] at h
    rw [← List.singleton_append, maxTime_append, maxTime_singleton]
    exact Nat.max_lt.mpr ⟨h.1, ih h.2⟩

theorem maxTime_lt_two_pow (es : List (Event Record)) : maxTime es < 2 ^ 64 :=
  maxTime_lt (by decide) fun e _ => time_lt e

namespace SourcePhysicalOperator

variable {U : Type}

/-- The number of events from one attempt to the next: the interval, or 1 if that is 0. -/
def period (interval : UInt64) : Nat := max interval.toNat 1

theorem period_pos (interval : UInt64) : 0 < period interval := Nat.le_max_right _ _

theorem period_lt (interval : UInt64) : period interval < 2 ^ 64 := by
  have := interval.toNat_lt
  unfold period
  omega

/-- Within a period the position goes up by 1. -/
theorem mod_succ_of_not_dvd {m n : Nat} (hm : 0 < m) (h : ¬ m ∣ n + 1) :
    (n + 1) % m = n % m + 1 := by
  rw [← Nat.mod_add_mod, Nat.mod_eq_of_lt]
  by_contra hcon
  have hlt := Nat.mod_lt n hm
  apply h
  rw [Nat.dvd_iff_mod_eq_zero, ← Nat.mod_add_mod, show n % m + 1 = m by omega, Nat.mod_self]

/-- The events up to the last attempt: a prefix whose length is a multiple of the period. -/
def attempted (interval : UInt64) (es : List (Event Record)) : List (Event Record) :=
  es.take (es.length / period interval * period interval)

theorem attempted_initial (interval : UInt64) (es : List (Event Record)) :
    attempted interval es <+: es := List.take_prefix _ _

theorem attempted_of_dvd {interval : UInt64} {es : List (Event Record)}
    (h : period interval ∣ es.length) : attempted interval es = es := by
  rw [attempted, Nat.div_mul_cancel h, List.take_length]

theorem attempted_append_of_not_dvd {interval : UInt64} {es : List (Event Record)}
    {e : Event Record} (h : ¬ period interval ∣ es.length + 1) :
    attempted interval (es ++ [e]) = attempted interval es := by
  unfold attempted
  rw [List.length_append, List.length_singleton, Nat.succ_div_of_not_dvd h]
  exact List.take_append_of_le_length (Nat.div_mul_le_self _ _)

theorem maxTime_mono {es fs : List (Event Record)} (h : es <+: fs) : maxTime es ≤ maxTime fs := by
  obtain ⟨gs, rfl⟩ := h
  rw [maxTime_append]
  exact Nat.le_max_left _ _

/-- The watermark that an attempt after the events `es` sends, when `before` are the events before
the previous attempt: one lateness below the maximum, if that is not below 0 and has grown. -/
def watermarkAfter (lateness sourceId : UInt64) (before es : List (Event Record)) :
    Option Watermark :=
  if lateness.toNat ≤ maxTime es ∧
      (before ≠ [] → lateness.toNat ≤ maxTime before → maxTime before < maxTime es) then
    some ⟨UInt64.ofNat (maxTime es - lateness.toNat), sourceId⟩
  else none

theorem watermarkAfter_eq_some {lateness sourceId : UInt64} {before es : List (Event Record)}
    {wm : Watermark} (h : watermarkAfter lateness sourceId before es = some wm) :
    wm.timestamp.toNat + lateness.toNat = maxTime es ∧
      (before ≠ [] → lateness.toNat ≤ maxTime before → maxTime before < maxTime es) := by
  unfold watermarkAfter at h
  split at h
  · rename_i hc
    obtain rfl := Option.some.inj h
    refine ⟨?_, hc.2⟩
    have := maxTime_lt_two_pow es
    rw [UInt64.toNat_ofNat_of_lt' (show _ < 2 ^ 64 by omega)]
    omega
  · cases h

/-- The state of the source after the events `es`. -/
structure Tracks (s : SourcePhysicalOperator U) (es : List (Event Record)) : Prop where
  maxTs : s.maxTs.toNat = maxTime es
  since : s.eventsSinceWatermark.toNat = es.length % period s.watermarkInterval
  emitted : s.watermarkEmitted = true ↔ attempted s.watermarkInterval es ≠ [] ∧
    s.allowedLateness.toNat ≤ maxTime (attempted s.watermarkInterval es)
  last : s.watermarkEmitted = true → s.lastWatermarkTs.toNat + s.allowedLateness.toNat =
    maxTime (attempted s.watermarkInterval es)

theorem create_tracks (func : U → Option (Event Record) × U) (captured : U)
    (allowedLateness watermarkInterval : UInt64) :
    Tracks (create func captured allowedLateness watermarkInterval) [] := by
  refine ⟨rfl, (Nat.zero_mod _).symm, ⟨nofun, fun h => ?_⟩, nofun⟩
  simp [attempted] at h

/-- One attempt, when the running maximum is that of `es` and the last watermark that of
`before`. -/
theorem emitWatermark_spec {s : SourcePhysicalOperator U} {before es : List (Event Record)}
    (hmax : s.maxTs.toNat = maxTime es) (hbefore : before <+: es) (hes : es ≠ [])
    (hemitted : s.watermarkEmitted = true ↔
      before ≠ [] ∧ s.allowedLateness.toNat ≤ maxTime before)
    (hlast : s.watermarkEmitted = true →
      s.lastWatermarkTs.toNat + s.allowedLateness.toNat = maxTime before) :
    ∃ ts b, s.emitWatermark = ({ s with lastWatermarkTs := ts, watermarkEmitted := b },
        .attempt (watermarkAfter s.allowedLateness s.sourceId before es)) ∧
      (b = true ↔ es ≠ [] ∧ s.allowedLateness.toNat ≤ maxTime es) ∧
      (b = true → ts.toNat + s.allowedLateness.toNat = maxTime es) := by
  have hle := maxTime_mono hbefore
  have hcond : s.maxTs < s.allowedLateness ↔ maxTime es < s.allowedLateness.toNat := by
    rw [UInt64.lt_iff_toNat_lt, hmax]
  unfold emitWatermark watermarkAfter
  by_cases hlow : maxTime es < s.allowedLateness.toNat
  · -- the maximum is still below the lateness, and so it was before
    have hno : s.watermarkEmitted = false := by
      rw [← Bool.not_eq_true, hemitted]
      omega
    refine ⟨s.lastWatermarkTs, s.watermarkEmitted, ?_, ?_, ?_⟩
    · rw [if_pos (hcond.mpr hlow), if_neg (by omega)]
    · rw [hno]
      exact iff_of_false nofun (by omega)
    · rw [hno]
      exact nofun
  · have hge : s.allowedLateness.toNat ≤ maxTime es := Nat.le_of_not_lt hlow
    have hsub : (s.maxTs - s.allowedLateness).toNat = maxTime es - s.allowedLateness.toNat := by
      rw [UInt64.toNat_sub_of_le _ _ (UInt64.le_iff_toNat_le.mpr (by omega)), hmax]
    have hts : s.maxTs - s.allowedLateness =
        UInt64.ofNat (maxTime es - s.allowedLateness.toNat) := by
      rw [← hsub, UInt64.ofNat_toNat]
    have htest : (!s.watermarkEmitted || decide (s.maxTs - s.allowedLateness > s.lastWatermarkTs))
        = true ↔ (before ≠ [] → s.allowedLateness.toNat ≤ maxTime before →
          maxTime before < maxTime es) := by
      rw [Bool.or_eq_true, Bool.not_eq_true', decide_eq_true_iff, gt_iff_lt,
        UInt64.lt_iff_toNat_lt, hsub]
      cases hb : s.watermarkEmitted with
      | false =>
        have hno := mt hemitted.mpr (by simp [hb])
        refine iff_of_true (Or.inl rfl) fun h1 h2 => absurd ⟨h1, h2⟩ hno
      | true =>
        have hl := hlast hb
        obtain ⟨h1, h2⟩ := hemitted.mp hb
        constructor
        · intro h _ _
          rcases h with h | h
          · cases h
          · omega
        · intro h
          have := h h1 h2
          exact Or.inr (by omega)
    by_cases hsend : before ≠ [] → s.allowedLateness.toNat ≤ maxTime before →
        maxTime before < maxTime es
    · refine ⟨s.maxTs - s.allowedLateness, true, ?_, ?_, ?_⟩
      · have hboth : s.allowedLateness.toNat ≤ maxTime es ∧ _ := ⟨hge, hsend⟩
        rw [if_neg (mt hcond.mp hlow), if_pos hboth, ← hts]
        exact if_pos (htest.mpr hsend)
      · exact iff_of_true rfl ⟨hes, hge⟩
      · intro _
        omega
    · refine ⟨s.lastWatermarkTs, s.watermarkEmitted, ?_, ?_, ?_⟩
      · have hnot : ¬ (s.allowedLateness.toNat ≤ maxTime es ∧ _) := fun h => hsend h.2
        rw [if_neg (mt hcond.mp hlow), if_neg hnot]
        exact if_neg (mt htest.mp hsend)
      · rw [hemitted]
        rw [Classical.not_imp, Classical.not_imp] at hsend
        exact iff_of_true ⟨hsend.1, hsend.2.1⟩ ⟨hes, hge⟩
      · intro hb
        have := hlast hb
        rw [Classical.not_imp, Classical.not_imp] at hsend
        omega

/-- What `execute` and `close` leave as they are. -/
structure SameConfig (s s' : SourcePhysicalOperator U) : Prop where
  allowedLateness : s'.allowedLateness = s.allowedLateness
  watermarkInterval : s'.watermarkInterval = s.watermarkInterval
  sourceId : s'.sourceId = s.sourceId

/-- The counter reaches the interval just when the number of events is a multiple of the period. -/
theorem since_ge_iff {s : SourcePhysicalOperator U} {es : List (Event Record)}
    (h : s.Tracks es) : (s.eventsSinceWatermark + 1).toNat =
        es.length % period s.watermarkInterval + 1 ∧
      (s.eventsSinceWatermark + 1 ≥ s.watermarkInterval ↔
        period s.watermarkInterval ∣ es.length + 1) := by
  have hp := period_lt s.watermarkInterval
  have hmod := Nat.mod_lt es.length (period_pos s.watermarkInterval)
  have hadd : (s.eventsSinceWatermark + 1).toNat =
      es.length % period s.watermarkInterval + 1 := by
    rw [toNat_add_of_lt, h.since]
    · rfl
    · rw [h.since]
      exact Nat.lt_of_le_of_lt (Nat.succ_le_of_lt hmod) hp
  refine ⟨hadd, ?_⟩
  rw [ge_iff_le, UInt64.le_iff_toNat_le, hadd, Nat.dvd_iff_mod_eq_zero]
  have hsucc : (es.length + 1) % period s.watermarkInterval =
      (es.length % period s.watermarkInterval + 1) % period s.watermarkInterval := by
    rw [Nat.mod_add_mod]
  rw [hsucc]
  have hper : period s.watermarkInterval = max s.watermarkInterval.toNat 1 := rfl
  rcases Nat.lt_or_ge (es.length % period s.watermarkInterval + 1)
      (period s.watermarkInterval) with hlt | hge
  · rw [Nat.mod_eq_of_lt hlt]
    omega
  · have heq : es.length % period s.watermarkInterval + 1 = period s.watermarkInterval := by omega
    rw [heq, Nat.mod_self]
    omega

/-- One event: forwarded, with an attempt when the events so far fill a period. -/
theorem forward_spec {s : SourcePhysicalOperator U} {es : List (Event Record)}
    (h : s.Tracks es) (e : Event Record) :
    (s.forward e).1.Tracks (es ++ [e]) ∧ SameConfig s (s.forward e).1 ∧
      (s.forward e).2 = .forward e :: if period s.watermarkInterval ∣ es.length + 1 then
        [.attempt (watermarkAfter s.allowedLateness s.sourceId (attempted s.watermarkInterval es)
          (es ++ [e]))] else [] := by
  obtain ⟨hsince, hattempt⟩ := since_ge_iff h
  have hmax : (stdMax s.maxTs e.timestamp).toNat = maxTime (es ++ [e]) := by
    rw [toNat_stdMax, h.maxTs, maxTime_append, maxTime_singleton]
    rfl
  unfold forward
  by_cases hdvd : period s.watermarkInterval ∣ es.length + 1
  · obtain ⟨ts, b, hemit, hb, hts⟩ := emitWatermark_spec
      (s := { s with
        maxTs := stdMax s.maxTs e.timestamp
        eventsSinceWatermark := s.eventsSinceWatermark + 1 })
      hmax ((attempted_initial s.watermarkInterval es).trans (List.prefix_append _ _)) (by simp)
      h.emitted h.last
    have hall : attempted s.watermarkInterval (es ++ [e]) = es ++ [e] :=
      attempted_of_dvd (by simpa using hdvd)
    simp only [if_pos (hattempt.mpr hdvd), if_pos hdvd, hemit]
    refine ⟨⟨hmax, ?_, ?_, ?_⟩, ⟨rfl, rfl, rfl⟩, trivial⟩
    · rw [List.length_append, List.length_singleton, Nat.mod_eq_zero_of_dvd hdvd]
      rfl
    · rw [hall]
      exact hb
    · rw [hall]
      exact hts
  · have hsame := attempted_append_of_not_dvd (e := e) hdvd
    simp only [if_neg (mt hattempt.mp hdvd), if_neg hdvd]
    refine ⟨⟨hmax, ?_, ?_, ?_⟩, ⟨rfl, rfl, rfl⟩, trivial⟩
    · have hmod := mod_succ_of_not_dvd (period_pos s.watermarkInterval) hdvd
      rw [List.length_append, List.length_singleton]
      exact hsince.trans hmod.symm
    · rw [hsame]
      exact h.emitted
    · rw [hsame]
      exact h.last

/-- The attempt of `close`, when there are events since the last one. -/
theorem close_spec {s : SourcePhysicalOperator U} {es : List (Event Record)} (h : s.Tracks es) :
    s.close.2 = if period s.watermarkInterval ∣ es.length then [] else
      [.attempt (watermarkAfter s.allowedLateness s.sourceId (attempted s.watermarkInterval es)
        es)] := by
  have hpos : s.eventsSinceWatermark > 0 ↔ ¬ period s.watermarkInterval ∣ es.length := by
    rw [gt_iff_lt, UInt64.lt_iff_toNat_lt, h.since, Nat.dvd_iff_mod_eq_zero]
    exact Nat.pos_iff_ne_zero
  unfold close
  by_cases hdvd : period s.watermarkInterval ∣ es.length
  · rw [if_neg (not_not_intro hdvd |> mt hpos.mp), if_pos hdvd]
  · have hes : es ≠ [] := by
      rintro rfl
      exact hdvd (Nat.dvd_zero _)
    obtain ⟨ts, b, hemit, -⟩ := emitWatermark_spec h.maxTs (attempted_initial s.watermarkInterval es)
      hes h.emitted h.last
    rw [if_pos (hpos.mpr hdvd), if_neg hdvd, hemit]

/-! ## The actions of a run -/

/-- The function yields the events `es` and then nothing. -/
def Yields (func : U → Option (Event Record) × U) : U → List (Event Record) → Prop
  | u, [] => (func u).1 = none
  | u, e :: es => (func u).1 = some e ∧ Yields func (func u).2 es

/-- The events of the first calls of the function. -/
def pulled (func : U → Option (Event Record) × U) : Nat → U → List (Event Record)
  | 0, _ => []
  | n + 1, u => (func u).1.toList ++ pulled func n (func u).2

/-- The actions on the events `es` and at `close`. -/
def finish : SourcePhysicalOperator U → List (Event Record) → List SourceAction
  | s, [] => s.close.2
  | s, e :: es => (s.forward e).2 ++ finish (s.forward e).1 es

theorem emitWatermark_congr (s : SourcePhysicalOperator U) (c : U) (d : Bool) :
    emitWatermark { s with captured := c, done := d } =
      ({ s.emitWatermark.1 with captured := c, done := d }, s.emitWatermark.2) := by
  unfold emitWatermark
  by_cases h : s.maxTs < s.allowedLateness
  · rw [if_pos h, if_pos h]
  · simp only [if_neg h]
    split
    · rfl
    · rfl

theorem forward_congr (s : SourcePhysicalOperator U) (c : U) (d : Bool) (e : Event Record) :
    forward { s with captured := c, done := d } e =
      ({ (s.forward e).1 with captured := c, done := d }, (s.forward e).2) := by
  unfold forward
  simp only [emitWatermark_congr { s with
    maxTs := stdMax s.maxTs e.timestamp
    eventsSinceWatermark := s.eventsSinceWatermark + 1 } c d]
  split
  · rfl
  · rfl

theorem close_congr (s : SourcePhysicalOperator U) (c : U) (d : Bool) :
    (close { s with captured := c, done := d }).2 = s.close.2 := by
  unfold close
  simp only [emitWatermark_congr s c d]
  split
  · rfl
  · rfl

theorem finish_congr (s : SourcePhysicalOperator U) (c : U) (d : Bool) (es : List (Event Record)) :
    finish { s with captured := c, done := d } es = finish s es := by
  induction es generalizing s with
  | nil => exact close_congr s c d
  | cons e es ih => rw [finish, finish, forward_congr, ih]

/-- The function never changes. -/
theorem forward_func (s : SourcePhysicalOperator U) (e : Event Record) :
    (s.forward e).1.func = s.func ∧ (s.forward e).1.captured = s.captured := by
  unfold forward emitWatermark
  simp only []
  split
  · split
    · exact ⟨rfl, rfl⟩
    · split
      · exact ⟨rfl, rfl⟩
      · exact ⟨rfl, rfl⟩
  · exact ⟨rfl, rfl⟩

theorem runToClose_succ (s : SourcePhysicalOperator U) (n : Nat) :
    s.runToClose (n + 1) = s.execute.2 ++ s.execute.1.runToClose n := by
  unfold runToClose
  rw [executeTimes, List.append_assoc]

theorem execute_of_none {s : SourcePhysicalOperator U} (h : (s.func s.captured).1 = none) :
    s.execute = ({ s with captured := (s.func s.captured).2, done := true }, []) := by
  unfold execute
  simp only [h]

theorem execute_of_some {s : SourcePhysicalOperator U} {e : Event Record}
    (h : (s.func s.captured).1 = some e) :
    s.execute = ({ (s.forward e).1 with
      captured := (s.func s.captured).2
      done := s.done }, (s.forward e).2) := by
  unfold execute
  simp only [h]
  exact forward_congr s (s.func s.captured).2 s.done e

/-- The actions of a whole run: those on the events that the function yields. -/
theorem runToClose_eq {s : SourcePhysicalOperator U} {es : List (Event Record)}
    (h : Yields s.func s.captured es) : s.runToClose (es.length + 1) = finish s es := by
  induction es generalizing s with
  | nil =>
    rw [List.length_nil, runToClose_succ, execute_of_none h]
    exact close_congr s _ true
  | cons e es ih =>
    obtain ⟨he, hes⟩ := h
    rw [List.length_cons, runToClose_succ, execute_of_some he, ih, finish_congr, finish]
    rw [(s.forward_func e).1]
    exact hes

/-- The actions of a run that ends after any number of pulls. -/
theorem runToClose_eq_finish (n : Nat) (s : SourcePhysicalOperator U) :
    s.runToClose n = finish s (pulled s.func n s.captured) := by
  induction n generalizing s with
  | zero => rfl
  | succ n ih =>
    rw [runToClose_succ, ih, pulled]
    cases h : (s.func s.captured).1 with
    | none =>
      rw [execute_of_none h]
      exact finish_congr s _ true _
    | some e =>
      rw [execute_of_some h, finish_congr]
      show (s.forward e).2 ++ finish (s.forward e).1
        (pulled (s.forward e).1.func n (s.func s.captured).2) = _
      rw [(s.forward_func e).1]
      rfl

end SourcePhysicalOperator

end Xtream
