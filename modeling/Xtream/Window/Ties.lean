import Xtream.Lib.KeyGroups
import Xtream.Window.Termination

/-!
# The order of events with equal timestamps

`insert` puts an event at the lower bound of its timestamp, before the events that have the same
one. So the events of one timestamp are in the buffer in the reversed order of their arrival, and
that is how the window function gets them.

* `consume_reversed`: what the buffer keeps of the order of arrival;
* `runToClose_groups`: the groups of equal timestamps in the vectors of a run;
* `arrival_order_iff`: for a stream in order, when all vectors are in the order of arrival.
-/

namespace Xtream

open KeyGroups SlidingWindow

theorem SortedByTime.pairwise {es : List (Event Record)} (h : SortedByTime es) :
    es.Pairwise (time · ≤ time ·) :=
  List.Pairwise.imp (fun hab => UInt64.le_iff_toNat_le.mp hab) h

/-- An insertion puts the event before those with the same timestamp. -/
theorem EventBuffer.group_insert (b : EventBuffer) (e : Event Record) (t : Nat) :
    group time t (b.insert e).events =
      if time e = t then e :: group time t b.events else group time t b.events := by
  have hlt : (b.events.filter fun x => x.timestamp < e.timestamp) =
      b.events.filter fun x => time x < time e := by
    refine List.filter_congr fun x _ => ?_
    rw [decide_eq_decide]
    exact UInt64.lt_iff_toNat_lt
  have hle : (b.events.filter fun x => e.timestamp ≤ x.timestamp) =
      b.events.filter fun x => time e ≤ time x := by
    refine List.filter_congr fun x _ => ?_
    rw [decide_eq_decide]
    exact UInt64.le_iff_toNat_le
  rw [insert_events, hlt, hle, group_append, group_filter (p := (· < time e))]
  by_cases ht : time e = t
  · rw [if_pos ht, ← ht, group_cons_self, group_filter (p := (time e ≤ ·)),
      if_neg (Nat.lt_irrefl _), if_pos (Nat.le_refl _), List.nil_append]
  · rw [if_neg ht, group_cons_of_ne ht, group_filter (p := (time e ≤ ·))]
    rcases Nat.lt_or_ge t (time e) with h | h
    · rw [if_pos h, if_neg (Nat.not_le_of_lt h), List.append_nil]
    · rw [if_neg (Nat.not_lt_of_le h), if_pos h, List.nil_append]

/-- The groups of a window. -/
theorem group_content (size stop t : Nat) (es : List (Event Record)) :
    group time t (content time size stop es) =
      if Covers size stop t then group time t es else [] := group_filter t es

namespace TimeWindowPhysicalOperator

variable {U : Type}

/-- What the buffer keeps of the order of arrival: from the first window on that has not fired, the
events of each timestamp, backwards. -/
def Reversed (op : TimeWindowPhysicalOperator U) (history : List (Event Record)) : Prop :=
  ∀ t, op.firstEnd ≤ t + op.spec.size.toNat →
    group time t op.buffer.events = (group time t history).reverse

section

variable {op op' : TimeWindowPhysicalOperator U} {history : List (Event Record)}

theorem create_reversed (spec : WindowSpec) (func : U → List (Event Record) → Event Record × U)
    (captured : U) (outputChannel : Option ChannelId) :
    (create spec func captured outputChannel).Reversed [] := fun _ _ => rfl

theorem onEvent_reversed (h : op.Reversed history) (e : Event Record) :
    (op.onEvent e).Reversed (history ++ [e]) := by
  intro t ht
  rw [onEvent_firstEnd, onEvent_spec] at ht
  rw [onEvent_buffer, EventBuffer.group_insert, h t ht, group_append]
  by_cases htime : time e = t
  · rw [if_pos htime, ← htime, group_cons_self]
    simp [group]
  · rw [if_neg htime, group_cons_of_ne htime]
    simp [group]

theorem moveTo_reversed (h : op.Reversed history) (hinit : op.windowInitialized = true)
    {N : UInt64} (c : U) (hle : op.nextWindowEnd.toNat ≤ N.toNat) :
    (op.moveTo N c).Reversed history := by
  intro t ht
  rw [(op.moveTo N c).firstEnd_of_started hinit, moveTo_nextWindowEnd, moveTo_spec] at ht
  have hkept : N.toNat - op.spec.size.toNat ≤ t := by omega
  rw [moveTo_events, group_filter (p := (N.toNat - op.spec.size.toNat ≤ ·)),
    if_pos hkept]
  exact h t (by rw [op.firstEnd_of_started hinit]; omega)

/-- The vector of a firing: sorted, with the groups of the history backwards. -/
structure FiresReversed (size : Nat) (history : List (Event Record)) (f : Firing) : Prop where
  sorted : SortedByTime f.events
  groups : ∀ t, group time t f.events =
    if Covers size f.windowEnd.toNat t then (group time t history).reverse else []

/-- The windows that fire on the buffer. -/
theorem firesReversed_of_windows (h : op.Reversed history) (hinit : op.windowInitialized = true)
    {m : Nat} {fs : List Firing} (hcall : fs.map Firing.call = op.windows m) :
    ∀ f ∈ fs, FiresReversed op.spec.size.toNat history f := by
  intro f hf
  have hmem : f.call ∈ op.windows m := hcall ▸ List.mem_map_of_mem hf
  obtain ⟨j, -, hend, hevents, -⟩ := mem_windowsFrom.mp hmem
  have hcontent : f.events = content time op.spec.size.toNat f.windowEnd.toNat op.buffer.events :=
    hevents
  refine ⟨?_, fun t => ?_⟩
  · rw [hcontent]
    exact op.buffer.sorted.filter _
  · rw [hcontent, group_content]
    by_cases hcov : Covers op.spec.size.toNat f.windowEnd.toNat t
    · rw [if_pos hcov, if_pos hcov]
      refine h t ?_
      rw [covers_iff] at hcov
      rw [op.firstEnd_of_started hinit]
      omega
    · rw [if_neg hcov, if_neg hcov]

theorem onWatermark_reversed (hadv : 0 < op.spec.advance.toNat) (h : op.Reversed history)
    {wm : Watermark} (hnw : op.WatermarkNoWrap wm) {fuel : Nat} {fs : List Firing}
    (hrun : op.onWatermark fuel wm = some (op', fs)) :
    op'.Reversed history ∧ ∀ f ∈ fs, FiresReversed op.spec.size.toNat history f := by
  by_cases hinit : op.windowInitialized = true
  · obtain ⟨c, N, fs', hrun', hN, hcall⟩ := onWatermark_spec hadv hnw hinit
    have hsame := onWatermark_mono (Nat.le_max_left fuel (op.rounds wm)) hrun
    rw [hrun' _ (Nat.le_max_right _ _)] at hsame
    cases hsame
    refine ⟨moveTo_reversed h hinit c ?_, firesReversed_of_windows h hinit hcall⟩
    rw [hN]
    exact Nat.le_add_right _ _
  · unfold onWatermark at hrun
    rw [if_pos (by simpa using hinit)] at hrun
    cases hrun
    exact ⟨h, List.forall_mem_nil _⟩

/-- One element. -/
theorem consume_reversed (hadv : 0 < op.spec.advance.toNat) (h : op.Reversed history)
    {x : StreamElement} (hnw : op.ConsumesNoWrap [x]) {fuel : Nat} {fs : List Firing}
    (hrun : op.consume fuel x = some (op', fs)) :
    op'.Reversed (history ++ events [x]) ∧
      ∀ f ∈ fs, FiresReversed op.spec.size.toNat history f := by
  cases x with
  | event e =>
    cases hrun
    exact ⟨onEvent_reversed h e, List.forall_mem_nil _⟩
  | watermark wm =>
    rw [events_cons_watermark, events_nil, List.append_nil]
    exact onWatermark_reversed hadv h hnw.1 hrun

theorem flush_reversed (hadv : 0 < op.spec.advance.toNat) (h : op.Reversed history)
    (hnw : op.FlushNoWrap) {fuel : Nat} {fs : List Firing} (hrun : op.flush fuel = some (op', fs)) :
    ∀ f ∈ fs, FiresReversed op.spec.size.toNat history f := by
  by_cases hinit : op.windowInitialized = true
  · obtain ⟨k, op₁, fs', hrun', -, -, -, hcall, -⟩ := flush_spec hadv hnw hinit
    have hsame := flush_mono (Nat.le_max_left fuel k) hrun
    rw [hrun' _ (Nat.le_max_right _ _)] at hsame
    cases hsame
    exact firesReversed_of_windows h hinit hcall
  · unfold flush at hrun
    rw [if_neg hinit] at hrun
    cases hrun
    exact List.forall_mem_nil _

/-- The first element of a run, and the rest of it. -/
theorem runToClose_cons {fuel : Nat} {x : StreamElement} {xs : List StreamElement}
    {tr : List (List Firing)} (hrun : op.runToClose fuel (x :: xs) = some tr) :
    ∃ op₁ fs tr', op.consume fuel x = some (op₁, fs) ∧ op₁.runToClose fuel xs = some tr' ∧
      tr = fs :: tr' := by
  obtain ⟨r, hr, hrun⟩ := Option.bind_eq_some_iff.mp hrun
  obtain ⟨s, hs, hr⟩ := Option.bind_eq_some_iff.mp hr
  obtain ⟨r', hr', hr⟩ := Option.bind_eq_some_iff.mp hr
  cases hr
  obtain ⟨s', hs', hrun⟩ := Option.bind_eq_some_iff.mp hrun
  cases hrun
  refine ⟨s.1, s.2, r'.2 ++ [s'.2], hs, ?_, rfl⟩
  rw [runToClose, hr', Option.bind_eq_bind, Option.bind_some, hs']
  rfl

theorem RunNoWrap.tail {x : StreamElement} {xs : List StreamElement} (h : op.RunNoWrap (x :: xs))
    {fuel : Nat} {fs : List Firing} (hrun : op.consume fuel x = some (op', fs)) :
    op'.RunNoWrap xs := by
  refine ⟨h.1.tail hrun, fun n op₂ tr htail => h.2 (max fuel n) op₂ (fs :: tr) ?_⟩
  rw [consumeAll, consume_mono (Nat.le_max_left fuel n) hrun, Option.bind_eq_bind,
    Option.bind_some, consumeAll_mono (Nat.le_max_right fuel n) htail]
  rfl

/-- The groups in a run. Each vector is sorted, with the events of each timestamp that had
arrived in the reversed order of their arrival. -/
theorem runToClose_groups {xs : List StreamElement} (hadv : 0 < op.spec.advance.toNat)
    (h : op.Reversed history) (hnw : op.RunNoWrap xs) {fuel : Nat} {tr : List (List Firing)}
    (hrun : op.runToClose fuel xs = some tr) : ∀ i fs, tr[i]? = some fs → ∀ f ∈ fs,
      FiresReversed op.spec.size.toNat (history ++ events (xs.take i)) f := by
  induction xs generalizing op history tr with
  | nil =>
    obtain ⟨s, hs, hrun⟩ := Option.bind_eq_some_iff.mp
      (show (op.flush fuel).bind (fun s => some ([] ++ [s.2])) = some tr from hrun)
    cases hrun
    intro i fs hi f hf
    cases i with
    | zero =>
      cases hi
      rw [List.take_nil, events_nil, List.append_nil]
      exact flush_reversed hadv h (hnw.2 fuel op [] rfl) hs f hf
    | succ i => cases hi
  | cons x xs ih =>
    obtain ⟨op₁, fs₁, tr', hconsume, htail, rfl⟩ := runToClose_cons hrun
    obtain ⟨h₁, hfires⟩ := consume_reversed hadv h hnw.1.head hconsume
    have hspec := consume_keeps_spec hconsume
    intro i fs hi f hf
    cases i with
    | zero =>
      cases hi
      rw [List.take_zero, events_nil, List.append_nil]
      exact hfires f hf
    | succ i =>
      have hrest := ih (by rwa [hspec]) h₁ (hnw.tail hconsume) htail i fs hi f hf
      rwa [hspec, List.append_assoc, ← events_append] at hrest

/-- A vector is in the order of arrival iff its groups are the same backwards. -/
theorem FiresReversed.events_eq_iff {size : Nat} {f : Firing} (hf : FiresReversed size history f)
    (hsorted : SortedByTime history) :
    f.events = content time size f.windowEnd.toNat history ↔
      ∀ t, Covers size f.windowEnd.toNat t →
        (group time t history).reverse = group time t history := by
  constructor
  · intro heq t hcov
    have hgroup := hf.groups t
    rw [heq, group_content, if_pos hcov, if_pos hcov] at hgroup
    exact hgroup.symm
  · intro h
    refine eq_of_group hf.sorted.pairwise (hsorted.filter _).pairwise fun t => ?_
    show _ = group time t (content time size f.windowEnd.toNat history)
    rw [hf.groups t, group_content]
    by_cases hcov : Covers size f.windowEnd.toNat t
    · rw [if_pos hcov, if_pos hcov]
      exact h t hcov
    · rw [if_neg hcov, if_neg hcov]

end

/-- **The order of the vectors.** For events that arrive in the order of their timestamps, all
vectors are in the order of arrival iff the events of one timestamp that have arrived when a window
over it fires are the same backwards. -/
theorem arrival_order_iff (spec : WindowSpec)
    (func : U → List (Event Record) → Event Record × U) (captured : U)
    (outputChannel : Option ChannelId) (hadv : 1 ≤ spec.advance.toNat) (xs : List StreamElement)
    (hxs : SortedByTime (events xs)) (hnw : (create spec func captured outputChannel).RunNoWrap xs) :
    ∃ n tr, (∀ fuel, n ≤ fuel →
        (create spec func captured outputChannel).runToClose fuel xs = some tr) ∧
      ((∀ i fs, tr[i]? = some fs → ∀ f ∈ fs, f.events =
          content time spec.size.toNat f.windowEnd.toNat (events (xs.take i))) ↔
        ∀ j t, Covers spec.size.toNat ((j + 1) * spec.advance.toNat) t →
          let arrived := executedBefore ((j + 1) * spec.advance.toNat) false xs
          (group time t arrived).reverse = group time t arrived) := by
  obtain ⟨n, tr, hrun, hlen, hfires⟩ := runToClose_spec (show
    0 < (create spec func captured outputChannel).spec.advance.toNat from hadv)
    (create_tracks spec func captured outputChannel) hnw
  have hgroups := runToClose_groups (show
    0 < (create spec func captured outputChannel).spec.advance.toNat from hadv)
    (create_reversed spec func captured outputChannel) hnw (hrun n (Nat.le_refl n))
  have hsorted : ∀ i, SortedByTime (events (xs.take i)) := by
    intro i
    have hsplit : events xs = events (xs.take i) ++ events (xs.drop i) := by
      rw [← events_append, List.take_append_drop]
    exact (List.pairwise_append.mp (show SortedByTime _ from hsplit ▸ hxs)).1
  have hiff : ∀ i fs, tr[i]? = some fs → ∀ f ∈ fs,
      (f.events = content time spec.size.toNat f.windowEnd.toNat (events (xs.take i)) ↔
        ∀ t, Covers spec.size.toNat f.windowEnd.toNat t →
          (group time t (events (xs.take i))).reverse = group time t (events (xs.take i))) :=
    fun i fs hi f hf => (hgroups i fs hi f hf).events_eq_iff (hsorted i)
  refine ⟨n, tr, hrun, fun h j t hcov => ?_, fun h i fs hi f hf => ?_⟩
  · intro arrived
    by_cases hnil : group time t arrived = []
    · rw [hnil]
      rfl
    · -- the window is not empty, so it fires
      obtain ⟨e, he⟩ := List.exists_mem_of_ne_nil _ hnil
      obtain ⟨hin, rfl⟩ := mem_group.mp he
      have hend := create_endAt spec func captured outputChannel j
      obtain ⟨fs, hi, f, hf, hE⟩ := hfires.complete j (by
        rw [hlen]
        exact Nat.lt_succ_of_le (firingStep_le ..)) (by
        rw [hend]
        exact List.ne_nil_of_mem (mem_content.mpr ⟨hin, hcov⟩))
      rw [hend] at hi hE
      exact (hiff _ fs hi f hf).mp (h _ fs hi f hf) _ (hE ▸ hcov)
  · obtain ⟨⟨j, hE⟩, rfl, -⟩ := hfires.sound i fs hi f hf
    rw [create_endAt] at hE
    refine (hiff _ fs hi f hf).mpr fun t hcov => ?_
    rw [hE] at hcov ⊢
    exact h j t hcov

/-- The events 1 and 3 in one window: no two of them have the same timestamp. -/
theorem arrival_order_small : ∃ n tr, (∀ fuel, n ≤ fuel →
      (create (timeWindow 10 10) (fun u es => (es.headD (eventAt 0), u)) () none).runToClose fuel
        [.event (eventAt 1), .event (eventAt 3)] = some tr) ∧
    ∀ i fs, tr[i]? = some fs → ∀ f ∈ fs, f.events =
      content time 10 f.windowEnd.toNat (events ([.event (eventAt 1), .event (eventAt 3)].take i)) := by
  have hnw : (create (timeWindow 10 10) (fun u es => (es.headD (eventAt 0), u)) () none).RunNoWrap
      [.event (eventAt 1), .event (eventAt 3)] := by
    refine ⟨trivial, fun fuel op tr hrun => ?_⟩
    cases hrun
    exact flushNoWrap_of_bound (by decide) (by decide)
  obtain ⟨n, tr, hrun, hiff⟩ := arrival_order_iff (timeWindow 10 10)
    (fun u es => (es.headD (eventAt 0), u)) () none (by decide)
    [.event (eventAt 1), .event (eventAt 3)] (by decide) hnw
  exact ⟨n, tr, hrun, hiff.mpr fun j t _ => group_reverse (l := [eventAt 1, eventAt 3])
    (by decide) t⟩

/-- Two different events with the timestamp 5: the function gets the second one first. -/
theorem ties_reversed : ∃ (e e' : Event Record) (tr : List (List Firing)),
    e.timestamp = e'.timestamp ∧ e ≠ e' ∧
      (create (timeWindow 10 10) (fun u es => (es.headD (eventAt 0), u)) () none).runToClose 2
        [.event e, .event e'] = some tr ∧
      tr.flatten.map (·.events) = [[e', e]] ∧
      content time 10 10 (events [.event e, .event e']) = [e, e'] :=
  ⟨eventAt 5, (eventAt 5).setMetadata "k" "v", _, rfl, by decide, rfl, by decide, by decide⟩

end TimeWindowPhysicalOperator

end Xtream
