import Xtream.Engine.WindowStage
import Xtream.Window.Refinement

/-!
# Lateness and watermark interval

A larger lateness and a sparser schedule of watermarks make every window fire later, so that it
sees more events.

* `executedBefore_schedule`: the events that a window sees, from the schedule of the source alone;
* `seenBy_mono`: with a larger lateness and a multiple of the interval a window sees more events;
* `lateness_keeps_pairs`: every event in a window of the one run is in that window in the other.
-/

namespace Xtream

open SlidingWindow
open SourcePhysicalOperator (schedule attemptAfter attempted period)

/-- The events that a window sees: up to the first attempt at which the maximum is the lateness
above its end. -/
def seenBy (stop lateness period : Nat) (history : List (Event Record)) :
    List (Event Record) → List (Event Record)
  | [] => []
  | e :: es =>
    e :: if period ∣ history.length + 1 ∧ stop + lateness ≤ maxTime (history ++ [e]) then []
      else seenBy stop lateness period (history ++ [e]) es

/-- The events that a window sees, when it has not fired at the last attempt. -/
theorem executedBefore_schedule {stop : Nat} (hstop : 0 < stop)
    {lateness interval sourceId : UInt64} {history es : List (Event Record)} {started : Bool}
    (hnot : maxTime (attempted interval history) < stop + lateness.toNat) :
    executedBefore stop started (elements (schedule lateness interval sourceId history es)) =
      seenBy stop lateness.toNat (period interval) history es := by
  induction es generalizing history started with
  | nil =>
    -- the attempt of `close` comes after the last event
    have hnone : ∀ xs : List StreamElement, events xs = [] → executedBefore stop started xs = [] := by
      intro xs hxs
      have hsub := (List.take_sublist (firingStep stop started xs) xs).filterMap
        StreamElement.event?
      exact List.sublist_nil.mp (hxs ▸ hsub)
    apply hnone
    rw [events_elements, SourcePhysicalOperator.forwarded_schedule]
  | cons e es ih =>
    unfold schedule seenBy
    rw [elements_forward, executedBefore_event, elements_append]
    by_cases hdvd : period interval ∣ history.length + 1
    · have hall : attempted interval (history ++ [e]) = history ++ [e] :=
        SourcePhysicalOperator.attempted_of_dvd (by simpa using hdvd)
      rw [if_pos hdvd]
      cases hw : attemptAfter lateness interval sourceId (history ++ [e]) with
      | none =>
        -- nothing new to send: the maximum has not grown since the last attempt
        have hlow : maxTime (history ++ [e]) < stop + lateness.toNat := by
          by_contra hcon
          obtain ⟨-, hsame⟩ :=
            SourcePhysicalOperator.attemptAfter_eq_none hw (by omega)
          rw [List.dropLast_concat] at hsame
          omega
        rw [if_neg fun hc => Nat.not_le_of_lt hlow hc.2]
        exact congrArg (e :: ·) (ih (by rwa [hall]))
      | some wm =>
        have hts := (SourcePhysicalOperator.watermarkAfter_eq_some hw).1
        show e :: executedBefore stop true (.watermark wm ::
          elements (schedule lateness interval sourceId (history ++ [e]) es)) = _
        by_cases hdue : stop + lateness.toNat ≤ maxTime (history ++ [e])
        · rw [if_pos ⟨hdvd, hdue⟩, executedBefore_of_le (by omega)]
        · rw [if_neg fun hc => hdue hc.2, executedBefore_of_lt (by omega)]
          exact congrArg (e :: ·) (ih (by rw [hall]; omega))
    · rw [if_neg hdvd, if_neg fun hc => hdvd hc.1]
      refine congrArg (e :: ·) (ih ?_)
      rwa [SourcePhysicalOperator.attempted_append_of_not_dvd hdvd]

/-- A larger lateness and a sparser schedule show a window more events. -/
theorem seenBy_mono {stop l l' p p' : Nat} (hl : l ≤ l') (hp : p ∣ p')
    (history es : List (Event Record)) :
    seenBy stop l p history es <+: seenBy stop l' p' history es := by
  induction es generalizing history with
  | nil => exact List.prefix_rfl
  | cons e es ih =>
    unfold seenBy
    rw [List.prefix_cons_inj]
    by_cases hfire : p ∣ history.length + 1 ∧ stop + l ≤ maxTime (history ++ [e])
    · rw [if_pos hfire]
      exact List.nil_prefix
    · have hlater : ¬ (p' ∣ history.length + 1 ∧ stop + l' ≤ maxTime (history ++ [e])) :=
        fun h => hfire ⟨hp.trans h.1, by omega⟩
      rw [if_neg hfire, if_neg hlater]
      exact ih (history ++ [e])

namespace TimeWindowPhysicalOperator

variable {U : Type}

/-- A window that sees more events before it fires is called with more events. -/
theorem Fires.events_subperm {op : TimeWindowPhysicalOperator U} {xs xs' : List StreamElement}
    {tr tr' : List (List Firing)} (h : Fires op [] xs tr) (h' : Fires op [] xs' tr')
    (hlen' : tr'.length = xs'.length + 1)
    (hmore : ∀ stop, 0 < stop → executedBefore stop op.windowInitialized xs <+:
      executedBefore stop op.windowInitialized xs') :
    ∀ f ∈ tr.flatten, ∃ f' ∈ tr'.flatten, f'.windowEnd = f.windowEnd ∧
      f.events.Subperm f'.events := by
  intro f hf
  obtain ⟨fs, hfs, hff⟩ := List.mem_flatten.mp hf
  obtain ⟨i, hi, rfl⟩ := List.mem_iff_getElem.mp hfs
  obtain ⟨⟨j, hj⟩, rfl, hperm, -, hne⟩ := h.sound i _ (List.getElem?_eq_getElem hi) f hff
  obtain ⟨e, he⟩ := List.exists_mem_of_ne_nil _ hne
  have hpos : 0 < f.windowEnd.toNat := by
    have := (mem_content.mp (hperm.mem_iff.mp he)).2
    rw [covers_iff] at this
    omega
  have hsub : (content time op.spec.size.toNat f.windowEnd.toNat
      (executedBefore f.windowEnd.toNat op.windowInitialized xs)).Sublist
      (content time op.spec.size.toNat f.windowEnd.toNat
        (executedBefore f.windowEnd.toNat op.windowInitialized xs')) :=
    (hmore _ hpos).sublist.filter _
  have hstep := firingStep_le f.windowEnd.toNat op.windowInitialized xs'
  obtain ⟨gs, hgs, g, hg, hgE⟩ := h'.complete j (by rw [← hj]; omega) (by
    rw [← hj, List.nil_append]
    intro hnil
    have hnil' := hsub
    unfold executedBefore at hnil'
    rw [hnil, List.sublist_nil] at hnil'
    rw [List.nil_append, hnil'] at hperm
    exact hne hperm.eq_nil)
  refine ⟨g, List.mem_flatten.mpr ⟨gs, List.mem_of_getElem? hgs, hg⟩,
    UInt64.toNat_inj.mp (hgE.trans hj.symm), ?_⟩
  obtain ⟨-, hgi, hgperm, -⟩ := h'.sound _ gs hgs g hg
  rw [List.nil_append, hgi] at hgperm
  rw [List.nil_append] at hperm
  rw [hgE, ← hj] at hgperm
  exact hperm.subperm.trans (hsub.subperm.trans hgperm.symm.subperm)

end TimeWindowPhysicalOperator

namespace Pipeline

variable {U : Type}

open TimeWindowPhysicalOperator (Fires runToClose_spec)

/-- **A larger lateness and a multiple of the interval drop no pair** of an event and a window end:
every window that fires in the one run fires in the other, with at least the same events. -/
theorem lateness_keeps_pairs {func : U → Option (Event Record) × U} {captured : U}
    {es : List (Event Record)} (hes : SourcePhysicalOperator.Yields func captured es)
    {lateness lateness' interval interval' : UInt64} (hlateness : lateness ≤ lateness')
    (hinterval : 1 ≤ interval) (hinterval' : 1 ≤ interval')
    (hdvd : interval.toNat ∣ interval'.toNat) {spec : WindowSpec}
    {wfunc : U → List (Event Record) → Event Record × U} {wcaptured : U}
    (hadv : 1 ≤ spec.advance)
    (hnw : (TimeWindowPhysicalOperator.create spec wfunc wcaptured none).RunNoWrap (elements
      ((SourcePhysicalOperator.create func captured lateness interval).runToClose
        (es.length + 1))))
    (hnw' : (TimeWindowPhysicalOperator.create spec wfunc wcaptured none).RunNoWrap (elements
      ((SourcePhysicalOperator.create func captured lateness' interval').runToClose
        (es.length + 1))))
    (chs : Channels) :
    ∃ n fs fs', (∀ fuel, n ≤ fuel →
        (run fuel [.source (.create func captured lateness interval),
          .timeWindow (.create spec wfunc wcaptured none)] chs).map (fun r => firings r.2.2) =
            some fs ∧
        (run fuel [.source (.create func captured lateness' interval'),
          .timeWindow (.create spec wfunc wcaptured none)] chs).map (fun r => firings r.2.2) =
            some fs') ∧
      ∀ f ∈ fs, ∃ f' ∈ fs', f'.windowEnd = f.windowEnd ∧ f.events.Subperm f'.events := by
  have hperiod : ∀ i : UInt64, 1 ≤ i → period i = i.toNat := fun i hi =>
    Nat.max_eq_left (UInt64.le_iff_toNat_le.mp hi)
  have hadv' : 0 < spec.advance.toNat := UInt64.le_iff_toNat_le.mp hadv
  have hcreate := TimeWindowPhysicalOperator.create_tracks spec wfunc wcaptured none
  obtain ⟨n, tr, hrun, -, hf⟩ := runToClose_spec hadv' hcreate hnw
  obtain ⟨n', tr', hrun', hlen', hf'⟩ := runToClose_spec hadv' hcreate hnw'
  refine ⟨max (es.length + 1) (max n n'), tr.flatten, tr'.flatten, fun fuel hfuel => ⟨?_, ?_⟩,
    hf.events_subperm hf' hlen' fun stop hstop => ?_⟩
  · rw [run_source_firings hes (by omega), Chain.runChain_timeWindow, hrun fuel (by omega)]
    rfl
  · rw [run_source_firings hes (by omega), Chain.runChain_timeWindow, hrun' fuel (by omega)]
    rfl
  · rw [SourcePhysicalOperator.runToClose_eq_schedule hes,
      SourcePhysicalOperator.runToClose_eq_schedule hes]
    have hnot : ∀ i l : UInt64, maxTime (attempted i []) < stop + l.toNat := fun i l => by
      simp [attempted]
      omega
    rw [executedBefore_schedule hstop (hnot _ _), executedBefore_schedule hstop (hnot _ _),
      hperiod _ hinterval, hperiod _ hinterval']
    exact seenBy_mono (UInt64.le_iff_toNat_le.mp hlateness) hdvd [] es

/-- The events 5 and 3: with a lateness of 2 and an interval of 2 the window from 2 to 4 sees the
second event, which is late otherwise. -/
theorem lateness_keeps_pairs_small : ∃ n fs fs', (∀ fuel, n ≤ fuel →
      (run fuel [.source (.create (fun u : List (Event Record) => (u.head?, u.tail))
          [eventAt 5, eventAt 3] 0 1),
        .timeWindow (.create (timeTumblingWindow 2) (fun u es => (es.headD (eventAt 0), u)) []
          none)] fun _ => {}).map (fun r => firings r.2.2) = some fs ∧
      (run fuel [.source (.create (fun u : List (Event Record) => (u.head?, u.tail))
          [eventAt 5, eventAt 3] 2 2),
        .timeWindow (.create (timeTumblingWindow 2) (fun u es => (es.headD (eventAt 0), u)) []
          none)] fun _ => {}).map (fun r => firings r.2.2) = some fs') ∧
    ∀ f ∈ fs, ∃ f' ∈ fs', f'.windowEnd = f.windowEnd ∧ f.events.Subperm f'.events := by
  have hes : SourcePhysicalOperator.Yields (fun u : List (Event Record) => (u.head?, u.tail))
      [eventAt 5, eventAt 3] [eventAt 5, eventAt 3] := ⟨rfl, rfl, rfl⟩
  refine lateness_keeps_pairs hes (by decide) (by decide) (by decide) (by decide) (by decide)
    (TimeWindowPhysicalOperator.runNoWrap_of_bound (by decide) ?_ (by decide))
    (TimeWindowPhysicalOperator.runNoWrap_of_bound (by decide) ?_ (by decide)) _
  · unfold TimeWindowPhysicalOperator.Bounded
    decide
  · unfold TimeWindowPhysicalOperator.Bounded
    decide

end Pipeline

end Xtream
