import Xtream.Window.Loops

/-!
# Runs of the time window

The specification of a time window speaks about its whole input: a window end `E` *fires* at the
first watermark that reaches it after the first event, or at `close` (`firingStep`), and then on the
events executed so far (`Fires`). The operator has dropped most of these events; `Tracks` says what
is left of the history in its buffer: exactly what the windows that have not fired will see.

* `consume_spec`: one element fires what the specification says and keeps `Tracks`;
* `consumeAll_spec`: so does a sequence of elements, by induction;
* `flush_fires`: so does the flush of `close`.

The results here are for runs in which no window end wraps.
-/

namespace Xtream

open SlidingWindow

/-- The step at which the window that ends at `stop` fires: the index of the first watermark that
reaches it after the first event (`started`: there has been one), or the step of `close`, after the
last element. -/
def firingStep (stop : Nat) : Bool → List StreamElement → Nat
  | _, [] => 0
  | _, .event _ :: xs => firingStep stop true xs + 1
  | started, .watermark wm :: xs =>
    if started = true ∧ stop ≤ wm.timestamp.toNat then 0 else firingStep stop started xs + 1

theorem firingStep_le (stop : Nat) (started : Bool) (xs : List StreamElement) :
    firingStep stop started xs ≤ xs.length := by
  induction xs generalizing started with
  | nil => exact Nat.le_refl _
  | cons x xs ih =>
    cases x with
    | event e => exact Nat.succ_le_succ (ih true)
    | watermark wm =>
      unfold firingStep
      split
      · exact Nat.zero_le _
      · exact Nat.succ_le_succ (ih started)

/-- The operator has executed an event after these elements. -/
def startedAfter (started : Bool) (xs : List StreamElement) : Bool :=
  started || !(events xs).isEmpty

/-- A window that does not fire among `xs` fires where it does among what follows. -/
theorem firingStep_append_of_eq {stop : Nat} {started : Bool} {xs : List StreamElement}
    (h : firingStep stop started xs = xs.length) (ys : List StreamElement) :
    firingStep stop started (xs ++ ys) =
      xs.length + firingStep stop (startedAfter started xs) ys := by
  induction xs generalizing started with
  | nil => simp [startedAfter]
  | cons x xs ih =>
    cases x with
    | event e =>
      have h' : firingStep stop true xs = xs.length := Nat.succ.inj h
      rw [List.cons_append, firingStep, ih h']
      simp [startedAfter]
      omega
    | watermark wm =>
      unfold firingStep at h
      split at h
      · cases h
      · rename_i hno
        rw [List.cons_append, firingStep, if_neg hno, ih (Nat.succ.inj h)]
        simp [startedAfter]
        omega

/-- A window that fires among `xs` fires there whatever follows. -/
theorem firingStep_append_of_lt {stop : Nat} {started : Bool} {xs : List StreamElement}
    (h : firingStep stop started xs < xs.length) (ys : List StreamElement) :
    firingStep stop started (xs ++ ys) = firingStep stop started xs := by
  induction xs generalizing started with
  | nil => cases h
  | cons x xs ih =>
    cases x with
    | event e =>
      rw [List.cons_append, firingStep, firingStep, ih (Nat.lt_of_succ_lt_succ h)]
    | watermark wm =>
      unfold firingStep at h
      rw [List.cons_append, firingStep, firingStep]
      split at h
      · rename_i hyes
        rw [if_pos hyes, if_pos hyes]
      · rename_i hno
        rw [if_neg hno, if_neg hno, ih (Nat.lt_of_succ_lt_succ h)]

/-- The events executed before the firing step of a window. -/
def executedBefore (stop : Nat) (started : Bool) (xs : List StreamElement) : List (Event Record) :=
  events (xs.take (firingStep stop started xs))

theorem executedBefore_event (stop : Nat) (started : Bool) (e : Event Record)
    (xs : List StreamElement) : executedBefore stop started (.event e :: xs) =
      e :: executedBefore stop true xs := rfl

theorem executedBefore_of_le {stop : Nat} {wm : Watermark} (h : stop ≤ wm.timestamp.toNat)
    (xs : List StreamElement) : executedBefore stop true (.watermark wm :: xs) = [] := by
  unfold executedBefore
  rw [firingStep, if_pos ⟨rfl, h⟩]
  rfl

theorem executedBefore_of_lt {stop : Nat} {wm : Watermark} (h : wm.timestamp.toNat < stop)
    (started : Bool) (xs : List StreamElement) :
    executedBefore stop started (.watermark wm :: xs) = executedBefore stop started xs := by
  unfold executedBefore
  rw [firingStep, if_neg fun hc => Nat.not_le_of_lt h hc.2]
  rfl

/-- The events executed since the last watermark; `recent` are those before the elements. -/
def sinceWatermark : List (Event Record) → List StreamElement → List (Event Record)
  | recent, [] => recent
  | recent, .event e :: xs => sinceWatermark (recent ++ [e]) xs
  | _, .watermark _ :: xs => sinceWatermark [] xs

theorem sinceWatermark_append (recent : List (Event Record)) (xs ys : List StreamElement) :
    sinceWatermark recent (xs ++ ys) = sinceWatermark (sinceWatermark recent xs) ys := by
  induction xs generalizing recent with
  | nil => rfl
  | cons x xs ih =>
    cases x with
    | event e => exact ih _
    | watermark wm => exact ih _

namespace TimeWindowPhysicalOperator

variable {U : Type}

/-- The elements, one `execute` after the other; the firings of each. -/
def consumeAll (fuel : Nat) : TimeWindowPhysicalOperator U → List StreamElement →
    Option (TimeWindowPhysicalOperator U × List (List Firing))
  | op, [] => some (op, [])
  | op, x :: xs => do
    let s ← op.consume fuel x
    let r ← consumeAll fuel s.1 xs
    return (r.1, s.2 :: r.2)

/-- The elements, then `close`; the firings of each step, the last that of `close`. -/
def runToClose (fuel : Nat) (op : TimeWindowPhysicalOperator U) (xs : List StreamElement) :
    Option (List (List Firing)) := do
  let r ← op.consumeAll fuel xs
  let s ← r.1.flush fuel
  return r.2 ++ [s.2]

theorem consumeAll_mono {n m : Nat} (hnm : n ≤ m) {op : TimeWindowPhysicalOperator U}
    {xs : List StreamElement} {r : TimeWindowPhysicalOperator U × List (List Firing)}
    (h : op.consumeAll n xs = some r) : op.consumeAll m xs = some r := by
  induction xs generalizing op r with
  | nil => exact h
  | cons x xs ih =>
    obtain ⟨s, hs, h⟩ := Option.bind_eq_some_iff.mp h
    obtain ⟨r', hr', h⟩ := Option.bind_eq_some_iff.mp h
    rw [consumeAll, consume_mono hnm hs, Option.bind_eq_bind, Option.bind_some, ih hr']
    exact h

theorem runToClose_mono {n m : Nat} (hnm : n ≤ m) {op : TimeWindowPhysicalOperator U}
    {xs : List StreamElement} {tr : List (List Firing)} (h : op.runToClose n xs = some tr) :
    op.runToClose m xs = some tr := by
  obtain ⟨r, hr, h⟩ := Option.bind_eq_some_iff.mp h
  obtain ⟨s, hs, h⟩ := Option.bind_eq_some_iff.mp h
  rw [runToClose, consumeAll_mono hnm hr, Option.bind_eq_bind, Option.bind_some,
    flush_mono hnm hs]
  exact h

/-- The result of a run does not depend on the fuel. -/
theorem runToClose_unique {n m : Nat} {op : TimeWindowPhysicalOperator U}
    {xs : List StreamElement} {tr tr' : List (List Firing)} (h : op.runToClose n xs = some tr)
    (h' : op.runToClose m xs = some tr') : tr = tr' :=
  While.unique_of_mono (f := fun n => op.runToClose n xs) (fun hnm h => runToClose_mono hnm h) h h'

/-- No window end wraps while the elements are executed. -/
def ConsumesNoWrap : TimeWindowPhysicalOperator U → List StreamElement → Prop
  | _, [] => True
  | op, .event e :: xs => ConsumesNoWrap (op.onEvent e) xs
  | op, .watermark wm :: xs => op.WatermarkNoWrap wm ∧
      ∀ fuel op' fs, op.onWatermark fuel wm = some (op', fs) → ConsumesNoWrap op' xs

/-- No window end wraps while the elements are executed and the operator is closed. -/
def RunNoWrap (op : TimeWindowPhysicalOperator U) (xs : List StreamElement) : Prop :=
  op.ConsumesNoWrap xs ∧
    ∀ fuel op' tr, op.consumeAll fuel xs = some (op', tr) → op'.FlushNoWrap

/-- The end of the first window that has not fired. -/
def firstEnd (op : TimeWindowPhysicalOperator U) : Nat :=
  if op.windowInitialized then op.nextWindowEnd.toNat else op.spec.advance.toNat

/-- What the buffer keeps of the history: the windows that have not fired see the same events. -/
structure Tracks (op : TimeWindowPhysicalOperator U) (history : List (Event Record)) : Prop where
  fresh : op.windowInitialized = false → op.buffer.events = []
  sub : ∀ e ∈ op.buffer.events, e ∈ history
  agree : ∀ stop, op.firstEnd ≤ stop →
    (content time op.spec.size.toNat stop op.buffer.events).Perm
      (content time op.spec.size.toNat stop history)

/-- What cleanup has left: the events since the last watermark, `recent`, are all in the buffer, and
the older ones there are not before the first window that has not fired. -/
structure Retains (op : TimeWindowPhysicalOperator U) (recent : List (Event Record)) : Prop where
  kept : ∀ e ∈ recent, e ∈ op.buffer.events
  older : ∀ e ∈ op.buffer.events, e ∈ recent ∨ op.firstEnd ≤ time e + op.spec.size.toNat

/-- The end of the `j`-th window that has not fired. -/
def endAt (op : TimeWindowPhysicalOperator U) (j : Nat) : Nat :=
  op.firstEnd + j * op.spec.advance.toNat

/-- The specification of a run on `xs` after `history`: `tr` has, step by step, the firings of
exactly the windows that fire there and have an event executed before, each on a sorted arrangement
of these events, in the order of the window ends. -/
structure Fires (op : TimeWindowPhysicalOperator U) (history : List (Event Record))
    (xs : List StreamElement) (tr : List (List Firing)) : Prop where
  sound : ∀ i fs, tr[i]? = some fs → ∀ f ∈ fs,
    (∃ j, f.windowEnd.toNat = op.endAt j) ∧
    i = firingStep f.windowEnd.toNat op.windowInitialized xs ∧
    f.events.Perm (content time op.spec.size.toNat f.windowEnd.toNat
      (history ++ events (xs.take i))) ∧
    SortedByTime f.events ∧ f.events ≠ []
  complete : ∀ j, firingStep (op.endAt j) op.windowInitialized xs < tr.length →
    content time op.spec.size.toNat (op.endAt j)
      (history ++ events (xs.take (firingStep (op.endAt j) op.windowInitialized xs))) ≠ [] →
    ∃ fs, tr[firingStep (op.endAt j) op.windowInitialized xs]? = some fs ∧
      ∃ f ∈ fs, f.windowEnd.toNat = op.endAt j
  increasing : (tr.flatten.map fun f => f.windowEnd.toNat).Pairwise (· < ·)

/-- Where `xs` leads the operator: the counter has moved by whole windows, and the windows that it
has passed are those that have fired. -/
structure Leads (op : TimeWindowPhysicalOperator U) (xs : List StreamElement)
    (op' : TimeWindowPhysicalOperator U) : Prop where
  spec : op'.spec = op.spec
  started : op'.windowInitialized = startedAfter op.windowInitialized xs
  shift : ∃ m, op'.firstEnd = op.endAt m
  passed : ∀ j, firingStep (op.endAt j) op.windowInitialized xs < xs.length ↔
    op.endAt j < op'.firstEnd

/-! ## Composition -/

section

variable {op op' op'' : TimeWindowPhysicalOperator U} {history : List (Event Record)}
  {xs ys : List StreamElement} {tr tr' : List (List Firing)}

theorem endAt_zero (op : TimeWindowPhysicalOperator U) : op.endAt 0 = op.firstEnd := by
  simp [endAt]

theorem firstEnd_le_endAt (op : TimeWindowPhysicalOperator U) (j : Nat) :
    op.firstEnd ≤ op.endAt j := Nat.le_add_right _ _

theorem endAt_lt_iff (hadv : 0 < op.spec.advance.toNat) {j k : Nat} :
    op.endAt j < op.endAt k ↔ j < k := by
  unfold endAt
  rw [Nat.add_lt_add_iff_left, Nat.mul_lt_mul_right hadv]

theorem Leads.advance (h : Leads op xs op') : op'.spec.advance = op.spec.advance := by rw [h.spec]

/-- The windows after the elements are the windows before them from some window on. -/
theorem Leads.endAt (h : Leads op xs op') :
    ∃ m, op'.firstEnd = op.endAt m ∧ ∀ j, op'.endAt j = op.endAt (m + j) := by
  obtain ⟨m, hm⟩ := h.shift
  refine ⟨m, hm, fun j => ?_⟩
  rw [TimeWindowPhysicalOperator.endAt, hm, h.spec, TimeWindowPhysicalOperator.endAt,
    TimeWindowPhysicalOperator.endAt, Nat.add_mul, Nat.add_assoc]

/-- A window that the elements have not fired is one of those after them. -/
theorem Leads.endAt_of_le (hadv : 0 < op.spec.advance.toNat) (h : Leads op xs op') {j : Nat}
    (hle : op'.firstEnd ≤ op.endAt j) : ∃ j', op.endAt j = op'.endAt j' := by
  obtain ⟨m, hm, hall⟩ := h.endAt
  have hmj : m ≤ j := by
    by_contra hcon
    have := (endAt_lt_iff hadv).mpr (Nat.lt_of_not_le hcon)
    omega
  exact ⟨j - m, by rw [hall, Nat.add_sub_cancel' hmj]⟩

theorem Leads.firingStep_eq (h : Leads op xs op') {j : Nat} (hle : op'.firstEnd ≤ op.endAt j) :
    firingStep (op.endAt j) op.windowInitialized xs = xs.length := by
  have := mt (h.passed j).mp (by omega)
  have := firingStep_le (op.endAt j) op.windowInitialized xs
  omega

theorem Leads.append (hadv : 0 < op.spec.advance.toNat) (h : Leads op xs op')
    (h' : Leads op' ys op'') : Leads op (xs ++ ys) op'' := by
  obtain ⟨m, hm, hall⟩ := h.endAt
  obtain ⟨m', hm', -⟩ := h'.endAt
  refine ⟨by rw [h'.spec, h.spec], ?_, ⟨m + m', by rw [hm', hall]⟩, fun j => ?_⟩
  · rw [h'.started, h.started, startedAfter, startedAfter, startedAfter, Bool.or_assoc,
      events_append]
    cases events xs <;> simp
  · rw [List.length_append]
    by_cases hlt : op.endAt j < op'.firstEnd
    · have hfs := (h.passed j).mpr hlt
      rw [firingStep_append_of_lt hfs]
      have := op'.firstEnd_le_endAt m'
      omega
    · have hle : op'.firstEnd ≤ op.endAt j := by omega
      obtain ⟨j', hj'⟩ := h.endAt_of_le hadv hle
      rw [firingStep_append_of_eq (h.firingStep_eq hle), Nat.add_lt_add_iff_left, ← h.started, hj',
        h'.passed j']

/-- The firings of the first elements are before those of the following ones. -/
theorem Fires.lt_of_leads (hl : Leads op xs op') (hlen : tr.length = xs.length)
    (h : Fires op history xs tr) {f : Firing} (hf : f ∈ tr.flatten) :
    f.windowEnd.toNat < op'.firstEnd := by
  obtain ⟨fs, hfs, hff⟩ := List.mem_flatten.mp hf
  obtain ⟨i, hi, rfl⟩ := List.mem_iff_getElem.mp hfs
  obtain ⟨⟨j, hj⟩, hstep, -⟩ := h.sound i _ (List.getElem?_eq_getElem hi) f hff
  rw [hj] at hstep ⊢
  exact (hl.passed j).mp (by omega)

theorem Fires.firstEnd_le (h : Fires op history xs tr) {f : Firing} (hf : f ∈ tr.flatten) :
    op.firstEnd ≤ f.windowEnd.toNat := by
  obtain ⟨fs, hfs, hff⟩ := List.mem_flatten.mp hf
  obtain ⟨i, hi, rfl⟩ := List.mem_iff_getElem.mp hfs
  obtain ⟨⟨j, hj⟩, -⟩ := h.sound i _ (List.getElem?_eq_getElem hi) f hff
  rw [hj]
  exact op.firstEnd_le_endAt j

/-- The specification composes over a sequence of elements. -/
theorem Fires.append (hadv : 0 < op.spec.advance.toNat) (hl : Leads op xs op')
    (hlen : tr.length = xs.length) (h : Fires op history xs tr)
    (h' : Fires op' (history ++ events xs) ys tr') : Fires op history (xs ++ ys) (tr ++ tr') := by
  obtain ⟨m, hm, hall⟩ := hl.endAt
  have htake : ∀ n, events ((xs ++ ys).take (xs.length + n)) = events xs ++ events (ys.take n) := by
    intro n
    rw [List.take_length_add_append, events_append]
  refine ⟨fun i fs hi f hf => ?_, fun j hj hne => ?_, ?_⟩
  · rcases Nat.lt_or_ge i tr.length with hlt | hge
    · rw [List.getElem?_append_left hlt] at hi
      obtain ⟨hE, hstep, hrest⟩ := h.sound i fs hi f hf
      rw [firingStep_append_of_lt (by omega), List.take_append_of_le_length (by omega)]
      exact ⟨hE, hstep, hrest⟩
    · rw [List.getElem?_append_right hge] at hi
      obtain ⟨⟨j, hj⟩, hstep, hperm, hrest⟩ := h'.sound _ fs hi f hf
      have hE : f.windowEnd.toNat = op.endAt (m + j) := by rw [hj, hall]
      have hle : op'.firstEnd ≤ op.endAt (m + j) := by
        rw [← hall]
        exact op'.firstEnd_le_endAt j
      have hnot := hl.firingStep_eq hle
      rw [← hE] at hnot
      refine ⟨⟨_, hE⟩, ?_, ?_, hrest⟩
      · rw [firingStep_append_of_eq hnot, ← hl.started, ← hstep]
        omega
      · rw [show i = xs.length + (i - tr.length) by omega, htake, ← List.append_assoc, ← hl.spec]
        exact hperm
  · by_cases hlt : op.endAt j < op'.firstEnd
    · have hfs := (hl.passed j).mpr hlt
      rw [firingStep_append_of_lt hfs] at hne ⊢
      rw [List.take_append_of_le_length (by omega)] at hne
      rw [List.getElem?_append_left (by omega)]
      exact h.complete j (by omega) hne
    · have hle : op'.firstEnd ≤ op.endAt j := by omega
      obtain ⟨j', hj'⟩ := hl.endAt_of_le hadv hle
      rw [firingStep_append_of_eq (hl.firingStep_eq hle), ← hl.started] at hj hne ⊢
      rw [htake, ← List.append_assoc, ← hl.spec] at hne
      rw [hj'] at hj hne ⊢
      rw [List.length_append] at hj
      rw [List.getElem?_append_right (by omega), hlen, Nat.add_sub_cancel_left]
      exact h'.complete j' (by omega) hne
  · rw [List.flatten_append, List.map_append, List.pairwise_append]
    refine ⟨h.increasing, h'.increasing, fun a ha b hb => ?_⟩
    obtain ⟨f, hf, rfl⟩ := List.mem_map.mp ha
    obtain ⟨g, hg, rfl⟩ := List.mem_map.mp hb
    exact (h.lt_of_leads hl hlen hf).trans_le (h'.firstEnd_le hg)

end

/-! ## One element -/

section

variable {op : TimeWindowPhysicalOperator U} {history : List (Event Record)}

theorem onEvent_firstEnd (op : TimeWindowPhysicalOperator U) (e : Event Record) :
    (op.onEvent e).firstEnd = op.firstEnd := by
  cases h : op.windowInitialized <;> simp [onEvent, firstEnd, h]

theorem onEvent_spec (op : TimeWindowPhysicalOperator U) (e : Event Record) :
    (op.onEvent e).spec = op.spec := by
  cases h : op.windowInitialized <;> simp [onEvent, h]

theorem onEvent_windowInitialized (op : TimeWindowPhysicalOperator U) (e : Event Record) :
    (op.onEvent e).windowInitialized = true := by
  cases h : op.windowInitialized <;> simp [onEvent, h]

theorem onEvent_buffer (op : TimeWindowPhysicalOperator U) (e : Event Record) :
    (op.onEvent e).buffer = op.buffer.insert e := by
  cases h : op.windowInitialized <;> simp [onEvent, h]

theorem onEvent_tracks (ht : op.Tracks history) (e : Event Record) :
    (op.onEvent e).Tracks (history ++ [e]) := by
  have hperm : (op.onEvent e).buffer.events.Perm (e :: op.buffer.events) := by
    rw [onEvent_buffer]
    exact op.buffer.insert_perm e
  refine ⟨fun h => ?_, fun x hx => ?_, fun stop hstop => ?_⟩
  · rw [onEvent_windowInitialized] at h
    cases h
  · rw [List.mem_append, List.mem_singleton]
    rcases List.mem_cons.mp (hperm.mem_iff.mp hx) with rfl | hx
    · exact Or.inr rfl
    · exact Or.inl (ht.sub x hx)
  · rw [onEvent_spec]
    rw [onEvent_firstEnd] at hstop
    have hcons : (content time op.spec.size.toNat stop (e :: op.buffer.events)).Perm
        (content time op.spec.size.toNat stop (e :: history)) := by
      simp only [content, List.filter_cons]
      split
      · exact (ht.agree stop hstop).cons e
      · exact ht.agree stop hstop
    exact ((content_perm hperm).trans hcons).trans
      (content_perm (List.perm_append_singleton e history).symm)

/-- An event fires nothing. -/
theorem onEvent_leads (op : TimeWindowPhysicalOperator U) (e : Event Record) :
    Leads op [.event e] (op.onEvent e) := by
  refine ⟨op.onEvent_spec e, ?_, ⟨0, ?_⟩, fun j => ?_⟩
  · rw [onEvent_windowInitialized]
    simp [startedAfter]
  · rw [onEvent_firstEnd, endAt_zero]
  · rw [onEvent_firstEnd]
    have := op.firstEnd_le_endAt j
    simp only [firingStep, List.length_cons, List.length_nil]
    omega

/-- A step without firings meets the specification when no window fires there. -/
theorem Fires.silent {xs : List StreamElement}
    (h : ∀ j, firingStep (op.endAt j) op.windowInitialized xs ≠ 0) :
    Fires op history xs [[]] := by
  refine ⟨fun i fs hi f hf => ?_, fun j hj => absurd ?_ (h j), List.Pairwise.nil⟩
  · cases i with
    | zero =>
      obtain rfl : [] = fs := Option.some.inj hi
      cases hf
    | succ i => cases hi
  · exact Nat.lt_one_iff.mp hj

/-- The firings of one step are those the specification asks for at the first step, when they
are calls on the buffer for the windows that fire there. -/
theorem Fires.of_windows (hadv : 0 < op.spec.advance.toNat)
    (hinit : op.windowInitialized = true) (ht : op.Tracks history) {xs : List StreamElement}
    {m : Nat} {fs : List Firing} (hcall : fs.map Firing.call = op.windows m)
    (hstep : ∀ j < m, firingStep (op.endAt j) op.windowInitialized xs = 0)
    (hrest : ∀ j, firingStep (op.endAt j) op.windowInitialized xs = 0 →
      content time op.spec.size.toNat (op.endAt j) op.buffer.events ≠ [] → j < m) :
    Fires op history xs [fs] := by
  have hfirst : op.firstEnd = op.nextWindowEnd.toNat := by rw [firstEnd, if_pos hinit]
  have hagree : ∀ j, (content time op.spec.size.toNat (op.endAt j) op.buffer.events).Perm
      (content time op.spec.size.toNat (op.endAt j) (history ++ events (xs.take 0))) := by
    intro j
    rw [List.take_zero, events_nil, List.append_nil]
    exact ht.agree _ (op.firstEnd_le_endAt j)
  have hmem : ∀ E v, (E, v) ∈ op.windows m ↔ ∃ j < m, E = op.endAt j ∧
      v = content time op.spec.size.toNat E op.buffer.events ∧ v ≠ [] := by
    intro E v
    unfold windows endAt
    rw [mem_windowsFrom, hfirst]
  refine ⟨fun i gs hi f hf => ?_, fun j hj hne => ?_, ?_⟩
  · cases i with
    | succ i => cases hi
    | zero =>
      obtain rfl : fs = gs := Option.some.inj hi
      have hc : (f.windowEnd.toNat, f.events) ∈ op.windows m := by
        rw [← hcall]
        exact List.mem_map_of_mem hf
      obtain ⟨j, hj, hE, hv, hne⟩ := (hmem _ _).mp hc
      refine ⟨⟨j, hE⟩, by rw [hE, hstep j hj], ?_, ?_, hne⟩
      · rw [hv, hE]
        exact hagree j
      · rw [hv]
        exact op.buffer.sorted.filter _
  · have h0 : firingStep (op.endAt j) op.windowInitialized xs = 0 := Nat.lt_one_iff.mp hj
    rw [h0] at hne ⊢
    have hne' : content time op.spec.size.toNat (op.endAt j) op.buffer.events ≠ [] := by
      intro hnil
      have hp := hagree j
      rw [hnil] at hp
      exact hne hp.nil_eq.symm
    have hc := (hmem _ _).mpr ⟨j, hrest j h0 hne', rfl, rfl, hne'⟩
    rw [← hcall] at hc
    obtain ⟨f, hf, hcf⟩ := List.mem_map.mp hc
    exact ⟨fs, rfl, f, hf, congrArg Prod.fst hcf⟩
  · have hw : (op.windows m).Pairwise fun p q => p.1 < q.1 := windowsFrom_increasing hadv _ _ _
    have hmap : fs.map (fun f => f.windowEnd.toNat) = (op.windows m).map Prod.fst := by
      rw [← hcall, List.map_map]
      rfl
    rw [List.flatten_cons, List.flatten_nil, List.append_nil, hmap]
    exact List.Pairwise.map Prod.fst (fun _ _ h => h) hw

/-! ## Watermarks and the flush -/

theorem firstEnd_of_started (op : TimeWindowPhysicalOperator U) (h : op.windowInitialized = true) :
    op.firstEnd = op.nextWindowEnd.toNat := by rw [firstEnd, if_pos h]

theorem endAt_of_started (op : TimeWindowPhysicalOperator U) (h : op.windowInitialized = true)
    (j : Nat) : op.endAt j = op.endAfter j := by rw [endAt, endAfter, op.firstEnd_of_started h]

/-- A run without firings that leaves the operator as it is. -/
theorem Leads.refl (op : TimeWindowPhysicalOperator U) : Leads op [] op := by
  refine ⟨rfl, by simp [startedAfter], ⟨0, op.endAt_zero.symm⟩, fun j => ?_⟩
  have := op.firstEnd_le_endAt j
  simp only [firingStep, List.length_nil]
  omega

/-- An element or a sequence of elements, executed as specified. -/
structure Completes (op : TimeWindowPhysicalOperator U) (history : List (Event Record))
    (xs : List StreamElement) (op' : TimeWindowPhysicalOperator U) (tr : List (List Firing)) :
    Prop where
  leads : Leads op xs op'
  length : tr.length = xs.length
  fires : Fires op history xs tr
  tracks : op'.Tracks (history ++ events xs)
  retains : ∀ recent, op.Retains recent → op'.Retains (sinceWatermark recent xs)

theorem onEvent_retains {recent : List (Event Record)} (hr : op.Retains recent)
    (e : Event Record) : (op.onEvent e).Retains (recent ++ [e]) := by
  have hmem : ∀ x, x ∈ (op.onEvent e).buffer.events ↔ x = e ∨ x ∈ op.buffer.events := by
    intro x
    rw [onEvent_buffer, (op.buffer.insert_perm e).mem_iff, List.mem_cons]
  refine ⟨fun x hx => ?_, fun x hx => ?_⟩
  · rw [hmem]
    rcases List.mem_append.mp hx with hx | hx
    · exact Or.inr (hr.kept x hx)
    · exact Or.inl (List.mem_singleton.mp hx)
  · rw [onEvent_firstEnd, onEvent_spec]
    rcases (hmem x).mp hx with rfl | hx
    · simp
    · rcases hr.older x hx with h | h
      · exact Or.inl (List.mem_append_left _ h)
      · exact Or.inr h

theorem onEvent_completes (ht : op.Tracks history) (e : Event Record) :
    Completes op history [.event e] (op.onEvent e) [[]] :=
  ⟨op.onEvent_leads e, rfl, Fires.silent fun _ => Nat.succ_ne_zero _, onEvent_tracks ht e,
    fun _ hr => onEvent_retains hr e⟩

theorem onWatermark_completes (hadv : 0 < op.spec.advance.toNat) (ht : op.Tracks history)
    {wm : Watermark} (hnw : op.WatermarkNoWrap wm) :
    ∃ n op' fs, (∀ fuel, n ≤ fuel → op.onWatermark fuel wm = some (op', fs)) ∧
      Completes op history [.watermark wm] op' [fs] := by
  by_cases hinit : op.windowInitialized = true
  · obtain ⟨c, N, fs, hrun, hN, hcall⟩ := onWatermark_spec hadv hnw hinit
    have hfirst : (op.moveTo N c).firstEnd = op.endAt (op.rounds wm) := by
      rw [(op.moveTo N c).firstEnd_of_started hinit, op.endAt_of_started hinit]
      exact hN
    have hstep : ∀ j, firingStep (op.endAt j) op.windowInitialized [.watermark wm] =
        if j < op.rounds wm then 0 else 1 := by
      intro j
      rw [firingStep, hinit, op.endAt_of_started hinit]
      simp [firingStep, lt_rounds_iff hadv]
    refine ⟨_, _, fs, hrun, ⟨⟨rfl, by simp [startedAfter], ⟨_, hfirst⟩, fun j => ?_⟩, rfl, ?_, ?_,
      fun recent _ => ⟨fun e he => ?_, fun e he => Or.inr ?_⟩⟩⟩
    · rw [hfirst, endAt_lt_iff hadv, hstep]
      by_cases hj : j < op.rounds wm <;> simp [hj]
    · refine Fires.of_windows hadv hinit ht hcall (fun j hj => ?_) fun j hj _ => ?_
      · rw [hstep, if_pos hj]
      · rw [hstep] at hj
        by_contra hcon
        rw [if_neg hcon] at hj
        cases hj
    · rw [events_cons_watermark, events_nil, List.append_nil]
      refine ⟨fun h => ?_, fun e he => ?_, fun stop hstop => ?_⟩
      · rw [moveTo_windowInitialized, hinit] at h
        cases h
      · rw [moveTo_events] at he
        exact ht.sub e (List.mem_of_mem_filter he)
      · have hge : op.firstEnd ≤ stop := by
          have := op.firstEnd_le_endAt (op.rounds wm)
          omega
        rw [moveTo_spec, moveTo_events, content_filter]
        · exact ht.agree stop hge
        · rw [(op.moveTo N c).firstEnd_of_started hinit] at hstop
          exact Nat.sub_le_sub_right hstop _
    · cases he
    · rw [moveTo_events, List.mem_filter, decide_eq_true_iff] at he
      rw [(op.moveTo N c).firstEnd_of_started hinit, moveTo_nextWindowEnd, moveTo_spec]
      omega
  · -- before the first event a watermark does nothing
    have hinit : op.windowInitialized = false := by simpa using hinit
    refine ⟨0, op, [], fun fuel _ => ?_, ⟨⟨rfl, by simp [startedAfter], ⟨0, op.endAt_zero.symm⟩,
      fun j => ?_⟩, rfl, Fires.silent fun j => ?_, ?_, fun recent hr => ⟨fun e he => ?_, fun e he => ?_⟩⟩⟩
    · unfold onWatermark
      rw [hinit]
      rfl
    · have := op.firstEnd_le_endAt j
      simp only [firingStep, hinit, List.length_cons, List.length_nil]
      simp
      omega
    · simp [firingStep, hinit]
    · simpa using ht
    · cases he
    · rw [ht.fresh hinit] at he
      cases he

/-- One element, when no window end wraps. -/
theorem consume_spec (hadv : 0 < op.spec.advance.toNat) (ht : op.Tracks history)
    {x : StreamElement} (hnw : op.ConsumesNoWrap [x]) :
    ∃ n op' fs, (∀ fuel, n ≤ fuel → op.consume fuel x = some (op', fs)) ∧
      Completes op history [x] op' [fs] := by
  cases x with
  | event e => exact ⟨0, _, [], fun _ _ => rfl, onEvent_completes ht e⟩
  | watermark wm => exact onWatermark_completes hadv ht hnw.1

theorem Completes.append {op' op'' : TimeWindowPhysicalOperator U} {xs ys : List StreamElement}
    {tr tr' : List (List Firing)} (hadv : 0 < op.spec.advance.toNat)
    (h : Completes op history xs op' tr) (h' : Completes op' (history ++ events xs) ys op'' tr') :
    Completes op history (xs ++ ys) op'' (tr ++ tr') := by
  refine ⟨h.leads.append hadv h'.leads, ?_, h.fires.append hadv h.leads h.length h'.fires, ?_,
    fun recent hr => ?_⟩
  · rw [List.length_append, List.length_append, h.length, h'.length]
  · rw [events_append, ← List.append_assoc]
    exact h'.tracks
  · rw [sinceWatermark_append]
    exact h'.retains _ (h.retains recent hr)

theorem ConsumesNoWrap.head {x : StreamElement} {xs : List StreamElement}
    (h : op.ConsumesNoWrap (x :: xs)) : op.ConsumesNoWrap [x] := by
  cases x with
  | event e => exact trivial
  | watermark wm => exact ⟨h.1, fun _ _ _ _ => trivial⟩

theorem ConsumesNoWrap.tail {x : StreamElement} {xs : List StreamElement} {fuel : Nat}
    {op' : TimeWindowPhysicalOperator U} {fs : List Firing} (h : op.ConsumesNoWrap (x :: xs))
    (hrun : op.consume fuel x = some (op', fs)) : op'.ConsumesNoWrap xs := by
  cases x with
  | event e =>
    cases hrun
    exact h
  | watermark wm => exact h.2 fuel op' fs hrun

/-- A sequence of elements, when no window end wraps: the run ends and fires what the
specification says. -/
theorem consumeAll_spec {xs : List StreamElement} (hadv : 0 < op.spec.advance.toNat)
    (ht : op.Tracks history) (hnw : op.ConsumesNoWrap xs) :
    ∃ n op' tr, (∀ fuel, n ≤ fuel → op.consumeAll fuel xs = some (op', tr)) ∧
      Completes op history xs op' tr := by
  induction xs generalizing op history with
  | nil =>
    refine ⟨0, op, [], fun _ _ => rfl, Leads.refl op, rfl, ?_, by simpa using ht, fun _ hr => hr⟩
    exact ⟨fun i fs h => by simp at h, fun j h => absurd h (Nat.not_lt_zero _), List.Pairwise.nil⟩
  | cons x xs ih =>
    obtain ⟨n, op₁, fs, hrun, hc⟩ := consume_spec hadv ht hnw.head
    have hadv₁ : 0 < op₁.spec.advance.toNat := by
      rw [hc.leads.advance]
      exact hadv
    obtain ⟨m, op₂, tr, hrun', hc'⟩ := ih hadv₁ hc.tracks (hnw.tail (hrun n (Nat.le_refl n)))
    refine ⟨max n m, op₂, fs :: tr, fun fuel hfuel => ?_, hc.append hadv hc'⟩
    rw [consumeAll, hrun fuel (by omega), Option.bind_eq_bind, Option.bind_some,
      hrun' fuel (by omega)]
    rfl

/-- A flush without firings meets the specification when the windows that are left are empty. -/
theorem Fires.silent_close (ht : op.Tracks history)
    (h : ∀ j, content time op.spec.size.toNat (op.endAt j) op.buffer.events = []) :
    Fires op history [] [[]] := by
  refine ⟨fun i fs hi f hf => ?_, fun j _ hne => ?_, List.Pairwise.nil⟩
  · obtain ⟨rfl⟩ : fs = [] := by
      cases i with
      | zero => exact (Option.some.inj hi).symm
      | succ i => cases hi
    cases hf
  · have hp := ht.agree _ (op.firstEnd_le_endAt j)
    rw [h j] at hp
    rw [List.take_nil, events_nil, List.append_nil] at hne
    exact absurd hp.nil_eq.symm hne

/-- The flush of `close`, when no window end wraps: it fires the windows that are left. -/
theorem flush_fires (hadv : 0 < op.spec.advance.toNat) (ht : op.Tracks history)
    (hnw : op.FlushNoWrap) :
    ∃ n op' fs, (∀ fuel, n ≤ fuel → op.flush fuel = some (op', fs)) ∧
      Fires op history [] [fs] := by
  by_cases hinit : op.windowInitialized = true
  · obtain ⟨k, op', fs, hrun, -, -, -, hcall, hcover⟩ := flush_spec hadv hnw hinit
    refine ⟨k, op', fs, hrun, Fires.of_windows hadv hinit ht hcall (fun _ _ => rfl)
      fun j _ hne => ?_⟩
    obtain ⟨e, he⟩ := List.exists_mem_of_ne_nil _ hne
    obtain ⟨hmem, hcov⟩ := mem_content.mp he
    have hlt := hcover e hmem
    rw [covers_iff] at hcov
    rw [← op.endAt_of_started hinit] at hlt
    exact (endAt_lt_iff hadv).mp (by omega)
  · have hinit : op.windowInitialized = false := by simpa using hinit
    -- nothing has been executed, so no window has events
    refine ⟨0, op, [], fun fuel _ => by simp [flush, hinit], Fires.silent_close ht fun j => ?_⟩
    rw [ht.fresh hinit]
    rfl

/-- A run of the elements and one of the flush make a run to `close`. -/
theorem runToClose_of {xs : List StreamElement} (hadv : 0 < op.spec.advance.toNat) {n m : Nat}
    {op₁ op₂ : TimeWindowPhysicalOperator U} {tr : List (List Firing)} {fs : List Firing}
    (hrun : ∀ fuel, n ≤ fuel → op.consumeAll fuel xs = some (op₁, tr))
    (hc : Completes op history xs op₁ tr)
    (hflush : ∀ fuel, m ≤ fuel → op₁.flush fuel = some (op₂, fs)) :
    (∀ fuel, max n m ≤ fuel → op.runToClose fuel xs = some (tr ++ [fs])) ∧
      (tr ++ [fs]).length = xs.length + 1 ∧
      (Fires op₁ (history ++ events xs) [] [fs] → Fires op history xs (tr ++ [fs])) := by
  refine ⟨fun fuel hfuel => ?_, by simp [hc.length], fun hf => ?_⟩
  · rw [runToClose, hrun fuel (by omega), Option.bind_eq_bind, Option.bind_some,
      hflush fuel (by omega)]
    rfl
  · have := hc.fires.append hadv hc.leads hc.length hf
    rwa [List.append_nil] at this

/-- A whole run, when no window end wraps: it ends, and fires what the specification says. -/
theorem runToClose_spec {xs : List StreamElement} (hadv : 0 < op.spec.advance.toNat)
    (ht : op.Tracks history) (hnw : op.RunNoWrap xs) :
    ∃ n tr, (∀ fuel, n ≤ fuel → op.runToClose fuel xs = some tr) ∧
      tr.length = xs.length + 1 ∧ Fires op history xs tr := by
  obtain ⟨n, op₁, tr, hrun, hc⟩ := consumeAll_spec hadv ht hnw.1
  have hadv₁ : 0 < op₁.spec.advance.toNat := by
    rw [hc.leads.advance]
    exact hadv
  obtain ⟨m, op₂, fs, hflush, hf⟩ :=
    flush_fires hadv₁ hc.tracks (hnw.2 n op₁ tr (hrun n (Nat.le_refl n)))
  obtain ⟨hrun', hlen, hfires⟩ := runToClose_of hadv hrun hc hflush
  exact ⟨max n m, _, hrun', hlen, hfires hf⟩

end

/-! ## The operator as constructed -/

section

variable (spec : WindowSpec) (func : U → List (Event Record) → Event Record × U) (captured : U)
  (outputChannel : Option ChannelId)

theorem create_tracks : (create spec func captured outputChannel).Tracks [] :=
  ⟨fun _ => rfl, fun _ h => h, fun _ _ => List.Perm.refl _⟩

theorem create_retains : (create spec func captured outputChannel).Retains [] :=
  ⟨fun _ h => (by cases h), fun _ h => (by cases h)⟩

theorem create_endAt (j : Nat) : (create spec func captured outputChannel).endAt j =
    (j + 1) * spec.advance.toNat := by
  rw [Nat.succ_mul, Nat.add_comm]
  rfl

end

end TimeWindowPhysicalOperator

end Xtream
