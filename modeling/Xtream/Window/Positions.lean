import Xtream.Lib.Slices
import Xtream.Window.Count

/-!
# Which events a count window passes to its function

The buffer is the only state of the operator: it holds the events from the start of the current
window on, and a firing moves that start by `advance`, or by the whole window if `advance` is not
smaller. So the windows of a run are the slices of `size` events that start `stepOf` events apart.

* `create_executeAll`: the state and the results after a run;
* `sliding_exact`: for `advance ≤ size` the windows start `advance` events apart;
* `gap_iff`: for `size < advance` they do not, from the second window on;
* `close_calls`: when `close` calls the function, and when all it passes has been in a window.
-/

namespace Xtream

open Slices

namespace CountWindowPhysicalOperator

variable {U : Type}

/-- The window function, called on one vector after the other: its results, and what it has
captured in the end. -/
def applyAll (func : U → List (Event Record) → Event Record × U) :
    U → List (List (Event Record)) → List (Event Record) × U
  | captured, [] => ([], captured)
  | captured, v :: vs =>
    let r := func captured v
    let r' := applyAll func r.2 vs
    (r.1 :: r'.1, r'.2)

theorem applyAll_concat (func : U → List (Event Record) → Event Record × U) (captured : U)
    (vs : List (List (Event Record))) (v : List (Event Record)) :
    applyAll func captured (vs ++ [v]) =
      ((applyAll func captured vs).1 ++ [(func (applyAll func captured vs).2 v).1],
        (func (applyAll func captured vs).2 v).2) := by
  induction vs generalizing captured with
  | nil => rfl
  | cons w vs ih => simp only [List.cons_append, applyAll, ih]

@[simp] theorem applyAll_length (func : U → List (Event Record) → Event Record × U) (captured : U)
    (vs : List (List (Event Record))) : (applyAll func captured vs).1.length = vs.length := by
  induction vs generalizing captured with
  | nil => rfl
  | cons v vs ih => simp [applyAll, ih]

/-- How many events a firing drops from the buffer of `size` events. -/
def stepOf (spec : WindowSpec) : Nat := min spec.advance.toNat spec.size.toNat

theorem stepOf_of_le {spec : WindowSpec} (h : spec.advance.toNat ≤ spec.size.toNat) :
    stepOf spec = spec.advance.toNat := Nat.min_eq_left h

theorem stepOf_of_ge {spec : WindowSpec} (h : spec.size.toNat ≤ spec.advance.toNat) :
    stepOf spec = spec.size.toNat := Nat.min_eq_right h

/-- The vectors passed to the window function while the events `es` arrive. -/
def vectors (spec : WindowSpec) (es : List (Event Record)) : List (List (Event Record)) :=
  slices spec.size.toNat (stepOf spec) es

/-- The operator after the events `es`: it has called its function on the full windows, and holds
the events after the start of the next one. -/
structure Passed (op : CountWindowPhysicalOperator U) (captured : U) (es : List (Event Record)) :
    Prop where
  buffer : op.buffer = rest op.spec.size.toNat (stepOf op.spec) es
  captured : op.captured = (applyAll op.func captured (vectors op.spec es)).2

/-- The results of the function for the events `es`, as they are sent downstream. -/
def sent (op : CountWindowPhysicalOperator U) (captured : U) (es : List (Event Record)) :
    List Output :=
  (applyAll op.func captured (vectors op.spec es)).1.flatMap (emit op.outputChannel)

theorem execute_func (op : CountWindowPhysicalOperator U) (x : StreamElement) :
    (op.execute x).1.func = op.func := by
  cases x with
  | watermark wm => rfl
  | event e =>
    by_cases h : op.buffer.length + 1 = op.spec.size.toNat
    · rw [execute_of_eq h]
    · rw [execute_of_ne h]

theorem executeAll_func (op : CountWindowPhysicalOperator U) (xs : List StreamElement) :
    (op.executeAll xs).1.func = op.func := by
  induction xs generalizing op with
  | nil => rfl
  | cons x xs ih => rw [executeAll, ih, execute_func]

/-- What is left in the buffer after a firing. -/
theorem fired_buffer {spec : WindowSpec} {v : List (Event Record)}
    (hlen : v.length = spec.size.toNat) :
    (if spec.advance.toNat ≥ spec.size.toNat then [] else v.drop spec.advance.toNat) =
      v.drop (stepOf spec) := by
  split
  · rename_i h
    rw [stepOf_of_ge h, List.drop_of_length_le (Nat.le_of_eq hlen)]
  · rename_i h
    rw [stepOf_of_le (by omega)]

/-- One event. -/
theorem onEvent_passed {op : CountWindowPhysicalOperator U} {captured : U}
    {es : List (Event Record)} (hstep : 0 < stepOf op.spec) (h : op.Passed captured es)
    (e : Event Record) :
    (op.execute (.event e)).1.Passed captured (es ++ [e]) ∧
      op.sent captured es ++ (op.execute (.event e)).2 = op.sent captured (es ++ [e]) := by
  have hle : stepOf op.spec ≤ op.spec.size.toNat := Nat.min_le_right _ _
  by_cases hfull : op.buffer.length + 1 = op.spec.size.toNat
  · -- the window fires
    have hlen : (op.buffer ++ [e]).length = op.spec.size.toNat := by simpa using hfull
    rw [h.buffer] at hfull
    obtain ⟨hslices, hrest⟩ := slices_concat_of_eq hstep hle e hfull
    rw [← h.buffer] at hslices hrest hfull
    have happly := applyAll_concat op.func captured (vectors op.spec es) (op.buffer ++ [e])
    rw [← h.captured] at happly
    rw [execute_of_eq hfull, fired_buffer hlen]
    refine ⟨⟨?_, ?_⟩, ?_⟩
    · exact hrest.symm
    · show (op.func op.captured (op.buffer ++ [e])).2 = (applyAll op.func captured (slices ..)).2
      rw [hslices]
      exact (congrArg Prod.snd happly).symm
    · rw [sent, sent, show vectors op.spec (es ++ [e]) = _ from hslices,
        show slices _ _ es = vectors op.spec es from rfl, happly, List.flatMap_append,
        List.flatMap_singleton]
  · rw [h.buffer] at hfull
    obtain ⟨hslices, hrest⟩ := slices_concat_of_ne hstep hle e hfull
    rw [← h.buffer] at hrest hfull
    rw [execute_of_ne hfull]
    refine ⟨⟨?_, ?_⟩, ?_⟩
    · exact hrest.symm
    · show op.captured = (applyAll op.func captured (slices ..)).2
      rw [hslices]
      exact h.captured
    · rw [sent, sent, show vectors op.spec (es ++ [e]) = _ from hslices, List.append_nil]
      rfl

theorem sent_congr {op op' : CountWindowPhysicalOperator U} (hspec : op'.spec = op.spec)
    (hfunc : op'.func = op.func) (hch : op'.outputChannel = op.outputChannel) (captured : U)
    (es : List (Event Record)) : op'.sent captured es = op.sent captured es := by
  rw [sent, sent, hspec, hfunc, hch]

/-- A run. -/
theorem executeAll_passed {op : CountWindowPhysicalOperator U} {captured : U}
    {es : List (Event Record)} (hstep : 0 < stepOf op.spec) (h : op.Passed captured es)
    (xs : List StreamElement) :
    (op.executeAll xs).1.Passed captured (es ++ events xs) ∧
      op.sent captured es ++ (op.executeAll xs).2 = op.sent captured (es ++ events xs) := by
  induction xs generalizing op es with
  | nil =>
    rw [events_nil, List.append_nil]
    exact ⟨h, List.append_nil _⟩
  | cons x xs ih =>
    cases x with
    | watermark wm => exact ih hstep h
    | event e =>
      obtain ⟨hpassed, hsent⟩ := onEvent_passed hstep h e
      have hspec := execute_spec op (.event e)
      have hcongr := sent_congr hspec (execute_func op (.event e))
        (execute_outputChannel op (.event e)) captured
      obtain ⟨hpassed', hsent'⟩ := ih (by rwa [hspec]) hpassed
      rw [hcongr, hcongr, List.append_assoc] at hsent'
      rw [List.append_assoc] at hpassed'
      refine ⟨hpassed', ?_⟩
      rw [executeAll, ← List.append_assoc, hsent]
      exact hsent'

/-- What a run has passed to the function, and what it holds, from the state in which the
operator is constructed. -/
theorem create_executeAll (spec : WindowSpec)
    (func : U → List (Event Record) → Event Record × U) (captured : U)
    (outputChannel : Option ChannelId) (hstep : 0 < stepOf spec) (xs : List StreamElement) :
    ((create spec func captured outputChannel).executeAll xs).1 =
        { spec, func, outputChannel,
          captured := (applyAll func captured (vectors spec (events xs))).2
          buffer := rest spec.size.toNat (stepOf spec) (events xs) } ∧
      ((create spec func captured outputChannel).executeAll xs).2 =
        (applyAll func captured (vectors spec (events xs))).1.flatMap (emit outputChannel) := by
  have hle : stepOf spec ≤ spec.size.toNat := Nat.min_le_right _ _
  have hnil : vectors spec [] = [] := by
    rw [vectors, slices, List.length_nil, count_zero hstep hle]
    rfl
  have hstart : (create spec func captured outputChannel).Passed captured [] := by
    refine ⟨?_, ?_⟩
    · exact (List.drop_nil ..).symm
    · show captured = (applyAll func captured (vectors spec [])).2
      rw [hnil]
      rfl
  obtain ⟨hpassed, hsent⟩ := executeAll_passed hstep hstart xs
  rw [List.nil_append] at hpassed hsent
  have hspec := executeAll_spec (create spec func captured outputChannel) xs
  have hfunc := executeAll_func (create spec func captured outputChannel) xs
  have hch := executeAll_outputChannel (create spec func captured outputChannel) xs
  have hbuffer := hpassed.buffer
  have hcaptured := hpassed.captured
  rw [hspec] at hbuffer hcaptured
  rw [hfunc] at hcaptured
  refine ⟨?_, ?_⟩
  · generalize ((create spec func captured outputChannel).executeAll xs).1 = op at *
    cases op
    cases hspec
    cases hfunc
    cases hch
    cases hbuffer
    cases hcaptured
    rfl
  · have hnone : (create spec func captured outputChannel).sent captured [] = [] := by
      rw [sent, show vectors (create spec func captured outputChannel).spec [] = [] from hnil]
      rfl
    rw [hnone, List.nil_append] at hsent
    exact hsent

/-- What `close` does with an output channel. -/
theorem close_some (op : CountWindowPhysicalOperator U) {ch : ChannelId}
    (h : op.outputChannel = some ch) :
    op.close.2 = (if op.buffer = [] then [] else [.write ch (op.func op.captured op.buffer).1]) ++
      [.closeChannel ch] := by
  unfold close
  rw [h]
  cases op.buffer <;> simp

/-! ## Windows that overlap or meet -/

/-- **Sliding count windows are exact.** -/
theorem sliding_exact (spec : WindowSpec) (func : U → List (Event Record) → Event Record × U)
    (captured : U) (outputChannel : Option ChannelId) (hadv : 1 ≤ spec.advance.toNat)
    (hle : spec.advance.toNat ≤ spec.size.toNat) (xs : List StreamElement) :
    let es := events xs
    let r := (create spec func captured outputChannel).executeAll xs
    ∃ fired : Nat, (∀ k, k < fired ↔ k * spec.advance.toNat + spec.size.toNat ≤ es.length) ∧
      let vs := (List.range fired).map fun k =>
        (es.drop (k * spec.advance.toNat)).take spec.size.toNat
      let remaining := es.drop (fired * spec.advance.toNat)
      let called := applyAll func captured vs
      r.2 = called.1.flatMap (emit outputChannel) ∧
      r.1.buffer = remaining ∧ r.1.buffer.length < spec.size.toNat ∧
      (∀ ch, outputChannel = some ch → r.1.close.2 =
        (if remaining = [] then [] else [.write ch (func called.2 remaining).1]) ++
          [.closeChannel ch]) ∧
      (spec.advance = spec.size →
        (vs ++ if remaining = [] then [] else [remaining]).flatten = es) := by
  intro es r
  have hstep := stepOf_of_le hle
  have hpos : 0 < stepOf spec := by omega
  obtain ⟨hop, houts⟩ := create_executeAll spec func captured outputChannel hpos xs
  have hlt := rest_length_lt hpos (Nat.min_le_right _ _) es
  have hclose := @close_some _ r.1
  rw [show r.1 = _ from hop] at hclose
  rw [hstep] at hlt
  simp only [vectors, hstep] at hop houts hclose
  refine ⟨count spec.size.toNat spec.advance.toNat es.length, fun k => lt_count_iff hadv, ?_⟩
  refine ⟨houts, congrArg buffer hop, ?_, fun ch hch => ?_, ?_⟩
  · rw [show r.1 = _ from hop]
    exact hlt
  · exact (congrArg (fun op => op.close.2) hop).trans (hclose hch)
  · intro heq
    have hflat := flatten_slices (show 0 < spec.size.toNat by omega) es
    have hrest : (if rest spec.size.toNat spec.size.toNat es = [] then []
        else [rest spec.size.toNat spec.size.toNat es]).flatten =
          rest spec.size.toNat spec.size.toNat es := by
      split
      · rename_i hnil
        exact hnil.symm
      · exact List.flatten_singleton
    rw [heq, List.flatten_append]
    exact (congrArg _ hrest).trans hflat

/-- Four events in windows of three that start two events apart. -/
theorem sliding_exact_four : ∃ fired : Nat, (∀ k, k < fired ↔ k * 2 + 3 ≤ 4) ∧
    ((create (countWindow 3 2) (fun u es => (es.headD (eventAt 0), u)) () (some 0)).executeAll
      (([1, 2, 3, 4].map eventAt).map .event)).1.buffer =
        ([1, 2, 3, 4].map eventAt).drop (fired * 2) := by
  obtain ⟨fired, hfired, -, hbuffer, -⟩ := sliding_exact (countWindow 3 2)
    (fun u es => (es.headD (eventAt 0), u)) () (some 0) (by decide) (by decide)
    (([1, 2, 3, 4].map eventAt).map .event)
  exact ⟨fired, hfired, hbuffer⟩

/-! ## Windows with a gap -/

/-- The `k`-th result of a run is the function applied to the `size` events from position
`k * advance` on, whatever the function is. -/
def StartsApart (spec : WindowSpec) (xs : List StreamElement) : Prop :=
  ∀ (U : Type) (func : U → List (Event Record) → Event Record × U) (captured : U)
    (outputChannel : Option ChannelId),
    let results := delivered ((create spec func captured outputChannel).executeAll xs).2
    results = (applyAll func captured ((List.range results.length).map fun k =>
      ((events xs).drop (k * spec.advance.toNat)).take spec.size.toNat)).1

theorem delivered_flatMap_emit (outputChannel : Option ChannelId) (es : List (Event Record)) :
    delivered (es.flatMap (emit outputChannel)) = es := by
  induction es with
  | nil => rfl
  | cons e es ih => rw [List.flatMap_cons, delivered_append, ih, delivered_emit, List.singleton_append]

/-- A function that captures nothing. -/
theorem applyAll_map (f : List (Event Record) → Event Record) (captured : U)
    (vs : List (List (Event Record))) :
    (applyAll (fun u v => (f v, u)) captured vs).1 = vs.map f := by
  induction vs with
  | nil => rfl
  | cons v vs ih => rw [applyAll, ih, List.map_cons]

/-- The results are those of the slices that start `size` events apart. -/
theorem startsApart_iff_slices {spec : WindowSpec} (hsize : 0 < spec.size.toNat)
    (hgap : spec.size.toNat < spec.advance.toNat) (xs : List StreamElement) :
    StartsApart spec xs ↔
      ∀ k, k * spec.size.toNat + spec.size.toNat ≤ (events xs).length →
        slice spec.size.toNat spec.advance.toNat (events xs) k =
          slice spec.size.toNat spec.size.toNat (events xs) k := by
  have hstep := stepOf_of_ge (Nat.le_of_lt hgap)
  have hresults : ∀ {U : Type} (func : U → List (Event Record) → Event Record × U) (captured : U)
      (outputChannel : Option ChannelId),
      delivered ((create spec func captured outputChannel).executeAll xs).2 =
        (applyAll func captured (slices spec.size.toNat spec.size.toNat (events xs))).1 := by
    intro U func captured outputChannel
    rw [(create_executeAll spec func captured outputChannel (by omega) xs).2,
      delivered_flatMap_emit, vectors, hstep]
  constructor
  · intro h k hk
    -- a function that tells the slice from every other vector
    have hfunc := h Unit (fun u v =>
      (if v = slice spec.size.toNat spec.size.toNat (events xs) k then eventAt 1 else eventAt 0, u))
      () none
    simp only [hresults, applyAll_length, slices_length] at hfunc
    rw [applyAll_map, applyAll_map, slices, List.map_map, List.map_map] at hfunc
    have hat := List.map_inj_left.mp hfunc k (List.mem_range.mpr ((lt_count_iff hsize).mpr hk))
    simp only [Function.comp_apply, if_true] at hat
    by_contra hne
    exact absurd (hat.trans (if_neg hne)) (by decide)
  · intro h U func captured outputChannel
    simp only [hresults, applyAll_length, slices_length]
    congr 2
    refine List.map_congr_left fun k hk => ?_
    exact (h k ((lt_count_iff hsize).mp (List.mem_range.mp hk))).symm

/-- The same, event by event: the first slices are the same anyway. -/
theorem startsApart_iff_getElem {spec : WindowSpec} (hsize : 0 < spec.size.toNat)
    (hgap : spec.size.toNat < spec.advance.toNat) (xs : List StreamElement) :
    StartsApart spec xs ↔
      ∀ k i, 1 ≤ k → (k + 1) * spec.size.toNat ≤ (events xs).length → i < spec.size.toNat →
        (events xs)[k * spec.advance.toNat + i]? = (events xs)[k * spec.size.toNat + i]? := by
  rw [startsApart_iff_slices hsize hgap]
  constructor
  · intro h k i _ hk hi
    have hslice := congrArg (fun l => l[i]?) (h k (by rw [Nat.add_mul, Nat.one_mul] at hk; omega))
    simpa [slice, hi] using hslice
  · intro h k hk
    rcases Nat.eq_zero_or_pos k with rfl | hpos
    · simp [slice]
    · refine List.ext_getElem? fun i => ?_
      by_cases hi : i < spec.size.toNat
      · simpa [slice, hi] using h k i hpos (by rw [Nat.add_mul, Nat.one_mul]; omega) hi
      · simp [slice, hi]

/-- **Windows with a gap** start `advance` events apart iff from the second full window on the
events `advance` apart are the same as those `size` apart; for events that are all different, iff
there is no second full window. -/
theorem gap_iff (spec : WindowSpec) (hsize : 1 ≤ spec.size.toNat)
    (hgap : spec.size.toNat < spec.advance.toNat) (xs : List StreamElement) :
    (StartsApart spec xs ↔
      ∀ k i, 1 ≤ k → (k + 1) * spec.size.toNat ≤ (events xs).length → i < spec.size.toNat →
        (events xs)[k * spec.advance.toNat + i]? = (events xs)[k * spec.size.toNat + i]?) ∧
      ((events xs).Nodup → (StartsApart spec xs ↔ (events xs).length < 2 * spec.size.toNat)) := by
  have hiff := startsApart_iff_getElem hsize hgap xs
  refine ⟨hiff, fun hnodup => hiff.trans ⟨fun h => ?_, fun h k i hk hfull _ => ?_⟩⟩
  · by_contra hlen
    have hsecond := h 1 0 (Nat.le_refl 1) (by omega) (by omega)
    simp only [Nat.one_mul, Nat.add_zero] at hsecond
    have hin : spec.size.toNat < (events xs).length := by omega
    rw [List.getElem?_eq_getElem hin] at hsecond
    obtain ⟨hin', hsame⟩ := List.getElem?_eq_some_iff.mp hsecond
    have := (List.Nodup.getElem_inj_iff hnodup).mp hsame
    omega
  · have hle : 2 * spec.size.toNat ≤ (k + 1) * spec.size.toNat :=
      Nat.mul_le_mul_right _ (by omega)
    omega

/-- Windows of two events: a full one and an event behind it, where the advance is 5; two full ones
and an event, where the advance is 3 and the last three events are the same. -/
theorem gap_fired :
    ((create (countWindow 2 5) (fun u es => (es.headD (eventAt 0), u)) () none).executeAll
      (([1, 2, 3].map eventAt).map .event)).2 = [.next (.event (eventAt 1))] ∧
    StartsApart (countWindow 2 5) (([1, 2, 3].map eventAt).map .event) ∧
    StartsApart (countWindow 2 3) (([1, 2, 3, 3, 3].map eventAt).map .event) := by
  refine ⟨by decide, ?_, ?_⟩
  · exact ((gap_iff (countWindow 2 5) (by decide) (by decide) _).2 (by decide)).mpr (by decide)
  · refine ((gap_iff (countWindow 2 3) (by decide) (by decide) _).1).mpr ?_
    intro k i hk hfull hi
    have hlen : (k + 1) * 2 ≤ 5 := hfull
    have hlt : i < 2 := hi
    obtain rfl : k = 1 := by omega
    interval_cases i <;> rfl

/-- Windows of one event that should start two events apart: the second result is that of the
second event, not of the third. -/
theorem gap_ignored : ∃ (spec : WindowSpec) (xs : List StreamElement),
    1 ≤ spec.size.toNat ∧ spec.size.toNat < spec.advance.toNat ∧ ¬ StartsApart spec xs := by
  refine ⟨countWindow 1 2, ([1, 2, 3].map eventAt).map .event, by decide, by decide, fun h => ?_⟩
  exact absurd (h Unit (fun u es => (es.headD (eventAt 0), u)) () none) (by decide)

/-! ## What `close` passes -/

/-- The event at position `p` is in a window that is full after `n` events. -/
def InWindow (spec : WindowSpec) (n p : Nat) : Prop :=
  ∃ k, k * spec.advance.toNat + spec.size.toNat ≤ n ∧ k * spec.advance.toNat ≤ p ∧
    p < k * spec.advance.toNat + spec.size.toNat

/-- Some event after the start of the first window that is not full is in no full window, unless the
last event has completed a window. -/
theorem exists_not_inWindow_iff {spec : WindowSpec} {n fired : Nat}
    (hfull : ∀ k, k < fired ↔ k * spec.advance.toNat + spec.size.toNat ≤ n) :
    (∃ p, fired * spec.advance.toNat ≤ p ∧ p < n ∧ ¬ InWindow spec n p) ↔
      fired * spec.advance.toNat < n ∧ ∀ k, n ≠ k * spec.advance.toNat + spec.size.toNat := by
  constructor
  · rintro ⟨p, hp, hpn, hout⟩
    refine ⟨by omega, fun k hk => hout ⟨k, by omega, ?_, by omega⟩⟩
    -- the window that ends with the last event starts before the rest
    have hlt := Nat.mul_le_mul_right spec.advance.toNat (Nat.le_of_lt ((hfull k).mpr (by omega)))
    omega
  · rintro ⟨hlt, hends⟩
    refine ⟨n - 1, by omega, by omega, ?_⟩
    rintro ⟨k, hkn, -, hk⟩
    exact hends k (by omega)

/-- **`close` passes on what the buffer holds**: the events after the start of the first window
that is not full. One of them is in no full window unless the last event has completed one. -/
theorem close_calls (spec : WindowSpec) (func : U → List (Event Record) → Event Record × U)
    (captured : U) (ch : ChannelId) (hadv : 1 ≤ spec.advance.toNat)
    (hle : spec.advance.toNat ≤ spec.size.toNat) (xs : List StreamElement) :
    let n := (events xs).length
    let op := ((create spec func captured (some ch)).executeAll xs).1
    ∃ fired : Nat, (∀ k, k < fired ↔ k * spec.advance.toNat + spec.size.toNat ≤ n) ∧
      op.buffer = (events xs).drop (fired * spec.advance.toNat) ∧
      op.close.2 = (if fired * spec.advance.toNat < n then
        [.write ch (op.func op.captured op.buffer).1] else []) ++ [.closeChannel ch] ∧
      ((∃ p, fired * spec.advance.toNat ≤ p ∧ p < n ∧ ¬ InWindow spec n p) ↔
        fired * spec.advance.toNat < n ∧ ∀ k, n ≠ k * spec.advance.toNat + spec.size.toNat) := by
  intro n op
  have hstep := stepOf_of_le hle
  have hop := (create_executeAll spec func captured (some ch) (by omega) xs).1
  have hbuffer : op.buffer = (events xs).drop
      (count spec.size.toNat spec.advance.toNat n * spec.advance.toNat) := by
    rw [← hstep]
    exact congrArg buffer hop
  have hfull : ∀ k, k < count spec.size.toNat spec.advance.toNat n ↔
      k * spec.advance.toNat + spec.size.toNat ≤ n := fun k => lt_count_iff hadv
  refine ⟨count spec.size.toNat spec.advance.toNat n, hfull, hbuffer, ?_,
    exists_not_inWindow_iff hfull⟩
  have hclose := close_some op (show op.outputChannel = some ch from congrArg outputChannel hop)
  have hempty : op.buffer = [] ↔
      ¬ count spec.size.toNat spec.advance.toNat n * spec.advance.toNat < n := by
    rw [hbuffer, List.drop_eq_nil_iff, Nat.not_lt]
  rw [hclose]
  by_cases h : op.buffer = []
  · rw [if_pos h, if_neg (hempty.mp h)]
  · rw [if_neg h, if_pos (Decidable.not_not.mp (mt hempty.mpr h))]

/-- Three events in windows of two: the third is in no full window. -/
theorem close_calls_three :
    ∃ fired : Nat, (∀ k, k < fired ↔ k * 2 + 2 ≤ 3) ∧
      ((create (countTumblingWindow 2) (fun u es => (es.headD (eventAt 0), u)) ()
        (some 0)).executeAll (([1, 2, 3].map eventAt).map .event)).1.buffer =
          ([1, 2, 3].map eventAt).drop (fired * 2) := by
  obtain ⟨fired, hfired, hbuffer, -⟩ := close_calls (countTumblingWindow 2)
    (fun u es => (es.headD (eventAt 0), u)) () 0 (by decide) (by decide)
    (([1, 2, 3].map eventAt).map .event)
  exact ⟨fired, hfired, hbuffer⟩

/-- Two events in windows of two that start one event apart: the last event has completed a
window, and `close` calls the function, which records its arguments, on that event again. -/
theorem stale_close :
    let op := ((create (countWindow 2 1) (fun vs v => (eventAt 0, vs ++ [v])) []
      (some 0)).executeAll [.event (eventAt 1), .event (eventAt 2)]).1
    op.buffer = [eventAt 2] ∧ op.captured = [[eventAt 1, eventAt 2]] ∧
      op.close.1.captured = [[eventAt 1, eventAt 2], [eventAt 2]] := by
  decide

end CountWindowPhysicalOperator

end Xtream
