import Xtream.Operators.CountWindow

/-!
# Runs of the count window

* `executeAll_holds`: how many events the buffer holds after a run, in terms of the number of
  events and the specification;
* `executeAll_withChannel`: the output channel changes how the results are sent, not which;
* `delivered_iff`: with `next_` and with an output channel the same results are delivered iff no
  event is left in the buffer at `close`.
-/

namespace Xtream

/-- The events sent downstream, to `next_` or to a channel. -/
def delivered (outs : List Output) : List (Event Record) :=
  outs.filterMap fun
    | .next (.event e) => some e
    | .write _ e => some e
    | _ => none

@[simp] theorem delivered_nil : delivered [] = [] := rfl

@[simp] theorem delivered_append (os os' : List Output) :
    delivered (os ++ os') = delivered os ++ delivered os' := List.filterMap_append

@[simp] theorem delivered_emit (outputChannel : Option ChannelId) (e : Event Record) :
    delivered (emit outputChannel e) = [e] := by cases outputChannel <;> rfl

namespace CountWindowPhysicalOperator

variable {U : Type}

/-- The elements, one `execute` after the other. -/
def executeAll : CountWindowPhysicalOperator U → List StreamElement →
    CountWindowPhysicalOperator U × List Output
  | op, [] => (op, [])
  | op, x :: xs =>
    let r := op.execute x
    let r' := executeAll r.1 xs
    (r'.1, r.2 ++ r'.2)

/-- The elements, then `close`: what the operator calls. -/
def runToClose (op : CountWindowPhysicalOperator U) (xs : List StreamElement) : List Output :=
  let r := op.executeAll xs
  r.2 ++ r.1.close.2

/-- An event that does not fill the buffer. -/
theorem execute_of_ne {op : CountWindowPhysicalOperator U} {e : Event Record}
    (h : op.buffer.length + 1 ≠ op.spec.size.toNat) :
    op.execute (.event e) = ({ op with buffer := op.buffer ++ [e] }, []) := by
  unfold execute
  exact if_neg (by simpa using h)

/-- An event that fills the buffer: the window fires and slides. -/
theorem execute_of_eq {op : CountWindowPhysicalOperator U} {e : Event Record}
    (h : op.buffer.length + 1 = op.spec.size.toNat) :
    op.execute (.event e) = ({ op with
        captured := (op.func op.captured (op.buffer ++ [e])).2
        buffer := if op.spec.advance.toNat ≥ op.spec.size.toNat then []
          else (op.buffer ++ [e]).drop op.spec.advance.toNat },
      emit op.outputChannel (op.func op.captured (op.buffer ++ [e])).1) := by
  have hlen : (op.buffer ++ [e]).length = op.spec.size.toNat := by simpa using h
  unfold execute
  simp only [fireAndSlide, hlen, if_true]

theorem execute_spec (op : CountWindowPhysicalOperator U) (x : StreamElement) :
    (op.execute x).1.spec = op.spec := by
  cases x with
  | watermark wm => rfl
  | event e =>
    by_cases h : op.buffer.length + 1 = op.spec.size.toNat
    · rw [execute_of_eq h]
    · rw [execute_of_ne h]

theorem executeAll_spec (op : CountWindowPhysicalOperator U) (xs : List StreamElement) :
    (op.executeAll xs).1.spec = op.spec := by
  induction xs generalizing op with
  | nil => rfl
  | cons x xs ih => rw [executeAll, ih, execute_spec]

/-! ## How full the buffer is -/

/-- The buffer after `n` events: it starts anew after each window if `advance` is not below `size`,
and otherwise keeps events from the first one on. -/
structure Holds (op : CountWindowPhysicalOperator U) (n : Nat) : Prop where
  lt : op.buffer.length < op.spec.size.toNat
  tumbling : op.spec.size.toNat ≤ op.spec.advance.toNat →
    op.buffer.length = n % op.spec.size.toNat
  sliding : op.spec.advance.toNat < op.spec.size.toNat → (op.buffer.length = 0 ↔ n = 0)

theorem onEvent_holds {op : CountWindowPhysicalOperator U} {n : Nat}
    (hadv : 0 < op.spec.advance.toNat) (h : op.Holds n) (e : Event Record) :
    (op.execute (.event e)).1.Holds (n + 1) := by
  have hlt := h.lt
  by_cases hfull : op.buffer.length + 1 = op.spec.size.toNat
  · rw [execute_of_eq hfull]
    rcases Nat.lt_or_ge op.spec.advance.toNat op.spec.size.toNat with hslide | htumble
    · have hlen : ((op.buffer ++ [e]).drop op.spec.advance.toNat).length =
          op.spec.size.toNat - op.spec.advance.toNat := by
        rw [List.length_drop, List.length_append, List.length_singleton, hfull]
      rw [if_neg (by omega)]
      constructor
      · show ((op.buffer ++ [e]).drop op.spec.advance.toNat).length < op.spec.size.toNat
        omega
      · intro (hle : op.spec.size.toNat ≤ op.spec.advance.toNat)
        omega
      · intro _
        show ((op.buffer ++ [e]).drop op.spec.advance.toNat).length = 0 ↔ _
        omega
    · -- a window that does not overlap the next one is dropped whole
      rw [if_pos htumble]
      constructor
      · show 0 < op.spec.size.toNat
        omega
      · intro _
        show 0 = (n + 1) % op.spec.size.toNat
        rw [← Nat.mod_add_mod, ← h.tumbling htumble, hfull, Nat.mod_self]
      · intro (hlt : op.spec.advance.toNat < op.spec.size.toNat)
        omega
  · rw [execute_of_ne hfull]
    have hlen : (op.buffer ++ [e]).length = op.buffer.length + 1 := by simp
    constructor
    · show (op.buffer ++ [e]).length < op.spec.size.toNat
      omega
    · intro (hle : op.spec.size.toNat ≤ op.spec.advance.toNat)
      show (op.buffer ++ [e]).length = (n + 1) % op.spec.size.toNat
      rw [hlen, ← Nat.mod_add_mod, ← h.tumbling hle, Nat.mod_eq_of_lt (by omega)]
    · intro _
      show (op.buffer ++ [e]).length = 0 ↔ _
      omega

/-- How many events are left after a run. -/
theorem executeAll_holds {op : CountWindowPhysicalOperator U} {n : Nat}
    (hadv : 0 < op.spec.advance.toNat) (h : op.Holds n) (xs : List StreamElement) :
    (op.executeAll xs).1.Holds (n + (events xs).length) := by
  induction xs generalizing op n with
  | nil => exact h
  | cons x xs ih =>
    cases x with
    | watermark wm => exact ih hadv h
    | event e =>
      have hstep := ih (by rwa [execute_spec]) (onEvent_holds hadv h e)
      rwa [Nat.add_assoc, Nat.add_comm 1] at hstep

theorem Holds.empty_iff {op : CountWindowPhysicalOperator U} {n : Nat} (h : op.Holds n) :
    op.buffer = [] ↔
      n = 0 ∨ (op.spec.size.toNat ≤ op.spec.advance.toNat ∧ op.spec.size.toNat ∣ n) := by
  rw [← List.length_eq_zero_iff]
  rcases Nat.lt_or_ge op.spec.advance.toNat op.spec.size.toNat with hlt | hge
  · rw [h.sliding hlt]
    omega
  · rw [h.tumbling hge, Nat.dvd_iff_mod_eq_zero]
    constructor
    · intro hn
      exact Or.inr ⟨hge, hn⟩
    · rintro (rfl | ⟨-, hn⟩)
      · exact Nat.zero_mod _
      · exact hn

/-! ## With and without an output channel -/

/-- The operator after `set_output_channel`. -/
def withChannel (op : CountWindowPhysicalOperator U) (ch : ChannelId) :
    CountWindowPhysicalOperator U := { op with outputChannel := some ch }

theorem execute_withChannel (op : CountWindowPhysicalOperator U) (ch : ChannelId)
    (x : StreamElement) : ((op.withChannel ch).execute x).1 = (op.execute x).1.withChannel ch ∧
      delivered ((op.withChannel ch).execute x).2 = delivered (op.execute x).2 := by
  cases x with
  | watermark wm => exact ⟨rfl, rfl⟩
  | event e =>
    by_cases h : op.buffer.length + 1 = op.spec.size.toNat
    · rw [execute_of_eq h, @execute_of_eq _ (op.withChannel ch) e h, delivered_emit, delivered_emit]
      exact ⟨rfl, rfl⟩
    · rw [execute_of_ne h, @execute_of_ne _ (op.withChannel ch) e h]
      exact ⟨rfl, rfl⟩

/-- The channel does not change what a run delivers, up to `close`. -/
theorem executeAll_withChannel (op : CountWindowPhysicalOperator U) (ch : ChannelId)
    (xs : List StreamElement) :
    ((op.withChannel ch).executeAll xs).1 = (op.executeAll xs).1.withChannel ch ∧
      delivered ((op.withChannel ch).executeAll xs).2 = delivered (op.executeAll xs).2 := by
  induction xs generalizing op with
  | nil => exact ⟨rfl, rfl⟩
  | cons x xs ih =>
    obtain ⟨hop, houts⟩ := execute_withChannel op ch x
    obtain ⟨hop', houts'⟩ := ih (op.execute x).1
    refine ⟨?_, ?_⟩
    · rw [executeAll, executeAll, hop, hop']
    · rw [executeAll, executeAll, hop, delivered_append, delivered_append, houts, houts']

theorem execute_outputChannel (op : CountWindowPhysicalOperator U) (x : StreamElement) :
    (op.execute x).1.outputChannel = op.outputChannel := by
  cases x with
  | watermark wm => rfl
  | event e =>
    by_cases h : op.buffer.length + 1 = op.spec.size.toNat
    · rw [execute_of_eq h]
    · rw [execute_of_ne h]

theorem executeAll_outputChannel (op : CountWindowPhysicalOperator U) (xs : List StreamElement) :
    (op.executeAll xs).1.outputChannel = op.outputChannel := by
  induction xs generalizing op with
  | nil => rfl
  | cons x xs ih => rw [executeAll, ih, execute_outputChannel]

/-- At `close` only the channel gets the rest of the buffer. -/
theorem close_delivered (op : CountWindowPhysicalOperator U) (ch : ChannelId) :
    delivered (op.withChannel ch).close.2 =
      if op.buffer = [] then [] else [(op.func op.captured op.buffer).1] := by
  unfold close withChannel
  cases op.buffer <;> simp [delivered]

theorem close_none (op : CountWindowPhysicalOperator U) (h : op.outputChannel = none) :
    op.close = (op, []) := by
  unfold close
  rw [h]

/-- **Both attachments deliver the same results** iff no event is left at the end: there were none,
or the windows do not overlap and the events fill them. -/
theorem delivered_iff (spec : WindowSpec) (func : U → List (Event Record) → Event Record × U)
    (captured : U) (ch : ChannelId) (hsize : 0 < spec.size.toNat) (hadv : 0 < spec.advance.toNat)
    (xs : List StreamElement) :
    delivered ((create spec func captured none).runToClose xs) =
        delivered ((create spec func captured (some ch)).runToClose xs) ↔
      (events xs).length = 0 ∨
        (spec.size.toNat ≤ spec.advance.toNat ∧ spec.size.toNat ∣ (events xs).length) := by
  have hholds : (create spec func captured none).Holds 0 :=
    ⟨hsize, fun _ => (Nat.zero_mod _).symm, fun _ => iff_of_true rfl rfl⟩
  have hend := executeAll_holds hadv hholds xs
  rw [Nat.zero_add] at hend
  have hempty := hend.empty_iff
  rw [executeAll_spec] at hempty
  refine Iff.trans ?_ hempty
  obtain ⟨hop, houts⟩ := executeAll_withChannel (create spec func captured none) ch xs
  have hnone : ((create spec func captured none).executeAll xs).1.outputChannel = none := by
    rw [executeAll_outputChannel]
    rfl
  have hleft : delivered ((create spec func captured none).runToClose xs) =
      delivered ((create spec func captured none).executeAll xs).2 := by
    rw [runToClose, close_none _ hnone, List.append_nil]
  have hright : delivered ((create spec func captured (some ch)).runToClose xs) =
      delivered ((create spec func captured none).executeAll xs).2 ++
        delivered (((create spec func captured none).executeAll xs).1.withChannel ch).close.2 := by
    rw [← hop, ← houts, ← delivered_append]
    rfl
  rw [hleft, hright, close_delivered]
  by_cases hnil : ((create spec func captured none).executeAll xs).1.buffer = []
  · simp [hnil]
  · simp [hnil]

/-- Three events in tumbling windows of three. -/
theorem delivered_tumbling : delivered ((create (countTumblingWindow 3)
      (fun u es => (es.headD (eventAt 0), u)) () none).runToClose
        [.event (eventAt 1), .event (eventAt 2), .event (eventAt 3)]) =
    delivered ((create (countTumblingWindow 3) (fun u es => (es.headD (eventAt 0), u)) ()
      (some 0)).runToClose [.event (eventAt 1), .event (eventAt 2), .event (eventAt 3)]) :=
  (delivered_iff _ _ _ _ (by decide) (by decide) _).mpr (Or.inr (by decide))

/-- One event in windows of two: the partial window goes to the channel, but not to `next_`. -/
theorem partial_window_lost : ∃ (spec : WindowSpec) (xs : List StreamElement),
    0 < spec.size.toNat ∧ 0 < spec.advance.toNat ∧
      delivered ((create spec (fun u es => (es.headD (eventAt 0), u)) () none).runToClose xs) = [] ∧
      delivered ((create spec (fun u es => (es.headD (eventAt 0), u)) ()
        (some 0)).runToClose xs) = [eventAt 1] :=
  ⟨countTumblingWindow 2, [.event (eventAt 1)], by decide, by decide, by decide, by decide⟩

end CountWindowPhysicalOperator

end Xtream
