import Xtream.Window.Positions
import Xtream.Window.Run

/-!
# The results of a time window

The function is called on one vector after the other, and what it has captured goes from one call to
the next: over a whole run, through all watermarks and the flush.

* `Applies`: the results of some firings are those of calling the function on their vectors in turn;
* `runToClose_applies`: the results of a whole run.
-/

namespace Xtream

namespace TimeWindowPhysicalOperator

open CountWindowPhysicalOperator (applyAll)

variable {U : Type}

/-- The function called on two lists of vectors. -/
theorem applyAll_append (func : U → List (Event Record) → Event Record × U) (captured : U)
    (vs ws : List (List (Event Record))) : applyAll func captured (vs ++ ws) =
      ((applyAll func captured vs).1 ++ (applyAll func (applyAll func captured vs).2 ws).1,
        (applyAll func (applyAll func captured vs).2 ws).2) := by
  induction vs generalizing captured with
  | nil => rfl
  | cons v vs ih => simp [applyAll, ih]

/-- The firings of an operator that becomes another one: the function called on their vectors. -/
structure Applies (op : TimeWindowPhysicalOperator U) (fs : List Firing)
    (op' : TimeWindowPhysicalOperator U) : Prop where
  func : op'.func = op.func
  calls : applyAll op.func op.captured (fs.map Firing.events) =
    (fs.map Firing.result, op'.captured)

variable {op op' op'' : TimeWindowPhysicalOperator U} {fs gs : List Firing}

theorem Applies.refl (op : TimeWindowPhysicalOperator U) : Applies op [] op := ⟨rfl, rfl⟩

/-- A change that leaves the function and what it has captured alone. -/
theorem Applies.congr (h : Applies op fs op') (hfunc : op''.func = op'.func)
    (hcaptured : op''.captured = op'.captured) : Applies op fs op'' :=
  ⟨hfunc.trans h.func, by rw [hcaptured]; exact h.calls⟩

theorem Applies.trans (h : Applies op fs op') (h' : Applies op' gs op'') :
    Applies op (fs ++ gs) op'' := by
  obtain ⟨hfunc, hcalls⟩ := h
  obtain ⟨hfunc', hcalls'⟩ := h'
  refine ⟨hfunc'.trans hfunc, ?_⟩
  rw [hfunc] at hcalls'
  rw [List.map_append, applyAll_append, hcalls, hcalls', List.map_append]

theorem fire_applies (op : TimeWindowPhysicalOperator U) : Applies op op.fire.2 op.fire.1 := by
  unfold fire
  by_cases hempty : (op.buffer.query (windowStart op.spec.size op.nextWindowEnd)
      op.nextWindowEnd).isEmpty = true
  · simp only [hempty, if_true]
    exact .refl op
  · simp only [hempty]
    exact ⟨rfl, rfl⟩

theorem watermarkRound_applies {wm : Watermark} {s : LoopState U} (h : Applies op s.2 s.1) :
    ∃ t, Applies op t.2 t.1 ∧
      (watermarkRound wm s = some (.brk t) ∨ watermarkRound wm s = some (.next t)) := by
  have hfire := h.trans (fire_applies s.1)
  unfold watermarkRound
  by_cases hgt : s.1.fire.1.nextWindowEnd > wm.timestamp
  · simp only [hgt, if_true]
    exact ⟨_, hfire, Or.inl rfl⟩
  · simp only [hgt, if_false]
    let op' := { s.1.fire.1 with
      nextWindowEnd := s.1.fire.1.nextWindowEnd + s.1.fire.1.spec.advance }
    exact ⟨(op', s.2 ++ s.1.fire.2), hfire.congr rfl rfl, Or.inr rfl⟩

theorem onWatermark_applies {fuel : Nat} {wm : Watermark}
    (h : op.onWatermark fuel wm = some (op', fs)) : Applies op fs op' := by
  unfold onWatermark at h
  split at h
  · cases h
    exact .refl op
  · obtain ⟨s, hs, h⟩ := Option.bind_eq_some_iff.mp h
    cases h
    have hloop : Applies op s.2 s.1 := by
      refine While.run_inv (I := fun s : LoopState U => Applies op s.2 s.1)
        (fun s t hs ht => ?_) (fun s t hs ht => ?_) (Applies.refl op) hs
      · obtain ⟨t', ht', heq | heq⟩ := @watermarkRound_applies U op wm s hs
        · rw [heq] at ht
          cases ht
        · rw [heq] at ht
          cases ht
          exact ht'
      · obtain ⟨t', ht', heq | heq⟩ := @watermarkRound_applies U op wm s hs
        · rw [heq] at ht
          cases ht
          exact ht'
        · rw [heq] at ht
          cases ht
    exact hloop.congr rfl rfl

theorem consume_applies {fuel : Nat} {x : StreamElement}
    (h : op.consume fuel x = some (op', fs)) : Applies op fs op' := by
  cases x with
  | event e =>
    cases h
    refine (Applies.refl op).congr ?_ ?_
    · cases hinit : op.windowInitialized <;> simp [onEvent, hinit]
    · cases hinit : op.windowInitialized <;> simp [onEvent, hinit]
  | watermark wm => exact onWatermark_applies h

theorem flush_applies {fuel : Nat} (h : op.flush fuel = some (op', fs)) : Applies op fs op' := by
  unfold flush at h
  split at h
  · refine While.run_inv (I := fun s : LoopState U => Applies op s.2 s.1)
      (fun s t hs ht => ?_) (fun s t _ ht => ?_) (Applies.refl op) h
    · cases ht
      exact (hs.trans (fire_applies s.1)).congr rfl rfl
    · cases ht
  · cases h
    exact .refl _

theorem consumeAll_applies {fuel : Nat} {xs : List StreamElement} {tr : List (List Firing)}
    (h : op.consumeAll fuel xs = some (op', tr)) : Applies op tr.flatten op' := by
  induction xs generalizing op tr with
  | nil =>
    cases h
    exact .refl _
  | cons x xs ih =>
    obtain ⟨s, hs, h⟩ := Option.bind_eq_some_iff.mp h
    obtain ⟨t, ht, h⟩ := Option.bind_eq_some_iff.mp h
    cases h
    exact (consume_applies hs).trans (ih ht)

/-- The results of a run: those of the function, called on the vectors in turn. -/
theorem runToClose_applies {fuel : Nat} {xs : List StreamElement} {tr : List (List Firing)}
    (h : op.runToClose fuel xs = some tr) : tr.flatten.map Firing.result =
      (applyAll op.func op.captured (tr.flatten.map Firing.events)).1 := by
  obtain ⟨r, hr, h⟩ := Option.bind_eq_some_iff.mp h
  obtain ⟨s, hs, h⟩ := Option.bind_eq_some_iff.mp h
  cases h
  have hrun := (consumeAll_applies hr).trans (flush_applies hs)
  rw [List.flatten_append, List.flatten_singleton, hrun.calls]

end TimeWindowPhysicalOperator

end Xtream
