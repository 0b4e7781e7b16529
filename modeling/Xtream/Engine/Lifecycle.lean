import Xtream.Engine.Hanging

/-!
# The life cycle of the operators

`Life` counts how many operators of a chain have been set up, opened, closed and terminated, from
the root on, and `Life.Step` says which call may come next: all operators are set up, then all are
opened; an operator is executed when all are open and it is not closed yet; the operators are closed
in order, and terminated in order when all are closed. So an operator may call those behind it while
it closes. A run that does not return stands in the loop of a time window.

* `Life.lifecycle`: what calls that go step by step keep to;
* `Pipeline.steps_trace`: the calls of a run go step by step;
* `Pipeline.trace_lifecycle`: the life cycle of every operator in every run.
-/

namespace Xtream

open KahnNetwork (Steps)

/-- How many operators have been set up, opened, closed and terminated. -/
structure Life where
  setups : Nat
  opens : Nat
  closes : Nat
  terminates : Nat

namespace Life

/-- The number of operators on which a method has been called that is called once. -/
def calls (l : Life) : Method → Nat
  | .setup => l.setups
  | .open_ => l.opens
  | .execute _ => 0
  | .close => l.closes
  | .terminate => l.terminates

/-- One operator more. -/
def advance (l : Life) : Method → Life
  | .setup => { l with setups := l.setups + 1 }
  | .open_ => { l with opens := l.opens + 1 }
  | .execute _ => l
  | .close => { l with closes := l.closes + 1 }
  | .terminate => { l with terminates := l.terminates + 1 }

/-- What has to be over before a method is called for the first time. -/
def Ready (n : Nat) (l : Life) : Method → Prop
  | .setup => True
  | .open_ => l.setups = n
  | .execute _ => False
  | .close => l.setups = n ∧ l.opens = n
  | .terminate => l.closes = n

/-- The call that comes next, in a chain of `n` operators. -/
inductive Step (n : Nat) : Life → Nat × Method → Life → Prop
  | next {l : Life} {m : Method} : l.Ready n m → l.calls m < n →
      Step n l (l.calls m, m) (l.advance m)
  | execute {l : Life} {i : Nat} {x : StreamElement} : l.setups = n → l.opens = n → l.closes ≤ i →
      i < n → Step n l (i, .execute x) l

/-- Before the first call. -/
def start : Life := ⟨0, 0, 0, 0⟩

theorem calls_advance_self {n : Nat} {l : Life} {m : Method} (h : l.Ready n m) :
    (l.advance m).calls m = l.calls m + 1 := by
  cases m with
  | execute x => cases h
  | _ => rfl

theorem calls_advance_other {l : Life} {m m' : Method} (h : m ≠ m') :
    (l.advance m).calls m' = l.calls m' := by
  cases m <;> cases m' <;> first | rfl | exact absurd rfl h

/-- Each method is called once on each operator, in order. -/
theorem Step.count {n : Nat} {l l' : Life} {a : Nat × Method} (h : Step n l a l') {m : Method}
    (hm : ∀ x, m ≠ .execute x) (i : Nat) :
    [a].count (i, m) + (if i < l.calls m then 1 else 0) = if i < l'.calls m then 1 else 0 := by
  cases h with
  | @execute i' x _ _ _ _ =>
    have hne : (i', Method.execute x) ≠ (i, m) := fun heq => hm x (Prod.ext_iff.mp heq).2.symm
    rw [List.count_cons_of_ne hne, List.count_nil, Nat.zero_add]
  | @next m' hready _ =>
    by_cases hmm : m' = m
    · subst hmm
      rw [calls_advance_self hready]
      by_cases hi : l.calls m' = i
      · subst hi
        simp
      · have hne : (l.calls m', m') ≠ (i, m') := fun heq => hi (Prod.ext_iff.mp heq).1
        rw [List.count_cons_of_ne hne, List.count_nil, Nat.zero_add]
        have hiff : i < l.calls m' ↔ i < l.calls m' + 1 := by omega
        simp only [hiff]
    · have hne : (l.calls m', m') ≠ (i, m) := fun heq => hmm (Prod.ext_iff.mp heq).2
      rw [calls_advance_other hmm, List.count_cons_of_ne hne, List.count_nil, Nat.zero_add]

theorem steps_count {n : Nat} {l l' : Life} {tr : Trace} (h : Steps (Step n) l tr l') {m : Method}
    (hm : ∀ x, m ≠ .execute x) (i : Nat) :
    tr.count (i, m) + (if i < l.calls m then 1 else 0) = if i < l'.calls m then 1 else 0 := by
  induction h with
  | nil l => exact Nat.zero_add _
  | @cons _ _ _ a as hstep _ ih =>
    have happend : (a :: as).count (i, m) = [a].count (i, m) + as.count (i, m) := by
      rw [← List.count_append, List.singleton_append]
    rw [← ih, ← hstep.count hm i, happend]
    omega

/-- From the start: the operators called are the first ones, once each. -/
theorem count_of_steps {n : Nat} {l : Life} {tr : Trace} (h : Steps (Step n) start tr l)
    {m : Method} (hm : ∀ x, m ≠ .execute x) (i : Nat) :
    tr.count (i, m) = if i < l.calls m then 1 else 0 := by
  have hzero : start.calls m = 0 := by cases m <;> rfl
  have hcount := steps_count h hm i
  rw [hzero] at hcount
  simpa using hcount

theorem mem_of_steps {n : Nat} {l : Life} {tr : Trace} (h : Steps (Step n) start tr l)
    {m : Method} (hm : ∀ x, m ≠ .execute x) {i : Nat} : (i, m) ∈ tr ↔ i < l.calls m := by
  rw [← List.count_pos_iff, count_of_steps h hm i]
  split <;> simp [*]

/-- What the calls of a run should keep to. -/
structure Lifecycle (tr : Trace) : Prop where
  /-- An operator is executed after its `setup` and `open`, and not after its `close`. -/
  execute : ∀ before i x after, tr = before ++ (i, .execute x) :: after →
    (i, .setup) ∈ before ∧ (i, .open_) ∈ before ∧ (i, .close) ∉ before
  /-- An operator is closed after all the operators before it. -/
  close : ∀ before i after, tr = before ++ (i, .close) :: after → ∀ j < i, (j, .close) ∈ before
  /-- No operator is closed or terminated twice. -/
  once : ∀ i, tr.count (i, .close) ≤ 1 ∧ tr.count (i, .terminate) ≤ 1

/-- Calls that go step by step keep to the life cycle. -/
theorem lifecycle {n : Nat} {l : Life} {tr : Trace} (h : Steps (Step n) start tr l) :
    Lifecycle tr := by
  refine ⟨fun before i x after heq => ?_, fun before i after heq j hj => ?_, fun i => ?_⟩
  · rw [heq, KahnNetwork.Steps.append_iff] at h
    obtain ⟨l', hbefore, hrest⟩ := h
    obtain ⟨l'', hstep, -⟩ := KahnNetwork.Steps.cons_iff.mp hrest
    cases hstep with
    | execute hsetups hopens hcloses hi =>
      rw [mem_of_steps hbefore (by simp), mem_of_steps hbefore (by simp),
        mem_of_steps hbefore (by simp)]
      exact ⟨hi.trans_eq hsetups.symm, hi.trans_eq hopens.symm, Nat.not_lt.mpr hcloses⟩
    | next hready _ => cases hready
  · rw [heq, KahnNetwork.Steps.append_iff] at h
    obtain ⟨l', hbefore, hrest⟩ := h
    obtain ⟨l'', hstep, -⟩ := KahnNetwork.Steps.cons_iff.mp hrest
    cases hstep with
    | next _ _ =>
      rw [mem_of_steps hbefore (by simp)]
      exact hj
  · rw [count_of_steps h (by simp), count_of_steps h (by simp)]
    constructor <;> split <;> omega

end Life

/-! ## The calls of a chain -/

open Life (Step)

section

variable {U : Type} {n : Nat} {l : Life}

/-- A `walk` over the operators with a method that is ready. -/
theorem Life.steps_walk {m : Method} (hready : l.Ready n m) (hzero : l.calls m = 0) {k : Nat}
    (hk : k ≤ n) : ∃ l', Steps (Step n) l ((List.range k).map fun i => (i, m)) l' ∧
      l'.Ready n m ∧ l'.calls m = k ∧ ∀ m', m' ≠ m → l'.calls m' = l.calls m' := by
  induction k with
  | zero => exact ⟨l, .nil l, hready, hzero, fun _ _ => rfl⟩
  | succ k ih =>
    obtain ⟨l', hsteps, hready', hcalls, hother⟩ := ih (Nat.le_of_succ_le hk)
    have hstep : Step n l' (k, m) (l'.advance m) := by
      have hnext := Step.next hready' (hcalls ▸ hk)
      rwa [hcalls] at hnext
    refine ⟨l'.advance m, ?_, ?_, ?_, fun m' hm' => ?_⟩
    · rw [List.range_succ, List.map_append]
      exact hsteps.append (.single hstep)
    · cases m with
      | execute x => cases hready'
      | _ => exact hready'
    · rw [Life.calls_advance_self hready', hcalls]
    · rw [Life.calls_advance_other hm'.symm, hother m' hm']

/-- The operators from `pos` on can be executed. -/
structure Life.Running (n pos : Nat) (l : Life) : Prop where
  setups : l.setups = n
  opens : l.opens = n
  closes : l.closes ≤ pos

namespace Chain

/-- What an operator calls behind it, when these are executions. -/
theorem deliverTrace_steps {fuel : Nat} {trace : Chain U → StreamElement → Trace} {ops : Chain U}
    (htrace : ∀ ops' x, ops'.length = ops.length → Steps (Step n) l (trace ops' x) l)
    (outs : List Output) : Steps (Step n) l (deliverTrace fuel trace ops outs) l := by
  induction outs generalizing ops with
  | nil => exact .nil l
  | cons o outs ih =>
    cases o with
    | next x =>
      refine (htrace ops x rfl).append ?_
      cases hr : execute fuel none ops x with
      | none => exact .nil l
      | some r =>
        have hlen := execute_length hr
        exact ih fun ops' y hops' => htrace ops' y (hops'.trans hlen)
    | write ch e => exact ih htrace
    | closeChannel ch => exact ih htrace
    | fire f => exact ih htrace
    | sink e => exact ih htrace

/-- `execute` calls operators that are open, from its position on. -/
theorem executeTraceAt_steps {fuel depth pos : Nat} {read : Option (Event Record)} {ops : Chain U}
    {x : StreamElement} (hl : l.Running n pos) (hlen : pos + ops.length ≤ n) :
    Steps (Step n) l (executeTraceAt fuel depth pos read ops x) l := by
  induction depth generalizing pos read ops x with
  | zero => cases ops <;> exact .nil l
  | succ depth ih =>
    cases ops with
    | nil => exact .nil l
    | cons op rest =>
      rw [List.length_cons] at hlen
      refine .cons (.execute hl.setups hl.opens hl.closes (by omega)) (deliverTrace_steps ?_ _)
      intro ops' y hops'
      exact ih ⟨hl.setups, hl.opens, Nat.le_succ_of_le hl.closes⟩ (by rw [hops']; omega)

/-- `close` of the next operator calls operators behind it. -/
theorem closeTraceAt_steps {fuel pos k : Nat} {ops : Chain U} (hsetups : l.setups = n)
    (hopens : l.opens = n) (hcloses : l.closes = pos + k) (hk : k < ops.length)
    (hlen : pos + ops.length ≤ n) :
    Steps (Step n) l (closeTraceAt fuel pos k ops) (l.advance .close) := by
  induction k generalizing pos ops with
  | zero =>
    cases ops with
    | nil => cases hk
    | cons op rest =>
      rw [List.length_cons] at hlen
      have hstep : Step n l (pos, .close) (l.advance .close) := by
        have hclose := @Step.next n l .close ⟨hsetups, hopens⟩ (by
          show l.closes < n
          omega)
        have hpos : l.calls .close = pos := hcloses
        rwa [hpos] at hclose
      refine .cons hstep (deliverTrace_steps (fun ops' y hops' => ?_) _)
      refine executeTraceAt_steps ⟨hsetups, hopens, ?_⟩ (by rw [hops']; omega)
      show l.closes + 1 ≤ pos + 1
      omega
  | succ k ih =>
    cases ops with
    | nil => cases hk
    | cons op rest =>
      rw [List.length_cons] at hk hlen
      exact ih (by omega) (by omega) (by omega)

/-- The closes, one after the other. -/
theorem closeTraceFrom_steps {fuel m k : Nat} {ops : Chain U} (hsetups : l.setups = n)
    (hopens : l.opens = n) (hcloses : l.closes = k) (hlen : ops.length = n) (hk : k + m = n) :
    ∃ l', Steps (Step n) l (closeTraceFrom fuel m k ops) l' ∧ l'.terminates = l.terminates ∧
      ((closeFrom fuel m k ops).isSome = true → l'.closes = n) := by
  induction m generalizing k ops l with
  | zero => exact ⟨l, .nil l, rfl, fun _ => hcloses.trans hk⟩
  | succ m ih =>
    have hfirst := @closeTraceAt_steps U n l fuel 0 k ops hsetups hopens
      (hcloses.trans (Nat.zero_add k).symm) (by omega) (by omega)
    unfold closeTraceFrom closeFrom
    cases hr : closeAt fuel k ops with
    | none => exact ⟨l.advance .close, hfirst.append (.nil _), rfl, fun h => by cases h⟩
    | some r =>
      obtain ⟨l', hsteps, hterminates, hall⟩ := @ih (l.advance .close) (k + 1) r.1 hsetups hopens
        (congrArg Nat.succ hcloses) ((closeAt_length hr).trans hlen) (by omega)
      refine ⟨l', hfirst.append hsteps, hterminates, fun h => hall ?_⟩
      show (closeFrom fuel m (k + 1) r.1).isSome = true
      revert h
      show ((closeFrom fuel m (k + 1) r.1).bind _).isSome = true → _
      cases closeFrom fuel m (k + 1) r.1 with
      | none => exact fun h => h
      | some s => exact fun _ => rfl

end Chain

namespace Pipeline

theorem pulls_length {mode : Mode} {fuel : Nat} {ops ops' : Chain U}
    {reads : List (Option (Event Record))} (h : pulls mode fuel ops reads = some ops') :
    ops'.length = ops.length := by
  induction reads generalizing ops with
  | nil =>
    cases h
    rfl
  | cons read reads ih =>
    obtain ⟨r, hr, h⟩ := Option.bind_eq_some_iff.mp h
    split at h
    · cases h
      exact Chain.execute_length hr
    · exact (ih h).trans (Chain.execute_length hr)

theorem pullsTrace_steps {mode : Mode} {fuel : Nat} {ops : Chain U}
    {reads : List (Option (Event Record))} (hl : l.Running n 0) (hlen : ops.length ≤ n) :
    Steps (Step n) l (pullsTrace mode fuel ops reads) l := by
  induction reads generalizing ops with
  | nil => exact .nil l
  | cons read reads ih =>
    refine (Chain.executeTraceAt_steps hl (by omega)).append ?_
    cases hr : Chain.execute fuel read ops dummy with
    | none => exact .nil l
    | some r =>
      show Steps (Step n) l (if _ then [] else _) l
      split
      · exact .nil l
      · exact ih ((Chain.execute_length hr).trans_le hlen)

/-- The calls of a run go step by step. -/
theorem steps_trace (mode : Mode) (fuel : Nat) (ops : Chain U)
    (reads : List (Option (Event Record))) : ∃ l,
      Steps (Step ops.length) .start (trace mode fuel ops reads) l ∧
      ((runPulls mode fuel ops reads).isSome = true →
        l.closes = ops.length ∧ l.terminates = ops.length) := by
  obtain ⟨l₁, hsetup, -, hsetups, hother₁⟩ :=
    @Life.steps_walk ops.length .start .setup trivial rfl _ (Nat.le_refl _)
  obtain ⟨l₂, hopen, hready, hopens, hother₂⟩ :=
    @Life.steps_walk ops.length l₁ .open_ hsetups (hother₁ .open_ (by simp)) _ (Nat.le_refl _)
  have hcloses : l₂.closes = 0 :=
    (hother₂ .close (by simp)).trans (hother₁ .close (by simp))
  have hterminates : l₂.terminates = 0 :=
    (hother₂ .terminate (by simp)).trans (hother₁ .terminate (by simp))
  have hpulls := @pullsTrace_steps U ops.length l₂ mode fuel ops reads
    ⟨hready, hopens, hcloses.le⟩ (Nat.le_refl _)
  have hsteps := (hsetup.append hopen).append hpulls
  unfold trace runPulls
  cases hops : pulls mode fuel ops reads with
  | none => exact ⟨l₂, hsteps.append (.nil _), fun h => by cases h⟩
  | some ops' =>
    have hlen := pulls_length hops
    obtain ⟨l₃, hclose, hterminates', hall⟩ := @Chain.closeTraceFrom_steps U ops.length l₂ fuel
      ops'.length 0 ops' hready hopens hcloses hlen (by omega)
    have hrun := hsteps.append hclose
    cases hr : Chain.closeAll fuel ops' with
    | none =>
      refine ⟨l₃, ?_, fun h => ?_⟩
      · simpa only [hr, walk, List.append_nil] using hrun
      · simp [hr] at h
    | some r =>
      have hcloses₃ : l₃.closes = ops.length := hall (by
        show (Chain.closeAll fuel ops').isSome = true
        rw [hr]
        rfl)
      have hlen₃ : r.1.length = ops.length := (Chain.closeFrom_length hr).trans hlen
      obtain ⟨l₄, hterminate, hclosed, hterminates₄, -⟩ :=
        @Life.steps_walk ops.length l₃ .terminate hcloses₃ (hterminates'.trans hterminates) _
          hlen₃.le
      refine ⟨l₄, ?_, fun _ => ⟨hclosed, hterminates₄.trans hlen₃⟩⟩
      simpa only [hr, walk, List.append_assoc] using hrun.append hterminate

/-- **The life cycle of the operators**, in every run: `setup` and `open` before `execute`, no
`execute` after `close`, the closes in order. When the run ends, each operator has been closed once
and terminated once. With enough fuel it ends, unless it comes to a call of an operator that does
not return from its own loop, and only a time window has such a loop. -/
theorem trace_lifecycle (mode : Mode) (ops : Chain U) (reads : List (Option (Event Record))) :
    (∀ fuel, Life.Lifecycle (trace mode fuel ops reads) ∧
      ((runPulls mode fuel ops reads).isSome = true → ∀ i,
        (trace mode fuel ops reads).count (i, .close) = (if i < ops.length then 1 else 0) ∧
        (trace mode fuel ops reads).count (i, .terminate) = if i < ops.length then 1 else 0)) ∧
    ((∃ n, ∀ fuel, n ≤ fuel → (runPulls mode fuel ops reads).isSome = true) ↔
      ¬ Hangs mode ops reads) ∧
    (Hangs mode ops reads → ∃ op ∈ ops, op.isTimeWindow = true) := by
  refine ⟨fun fuel => ?_, returns_iff, fun h => ?_⟩
  · obtain ⟨l, hsteps, hall⟩ := steps_trace mode fuel ops reads
    refine ⟨Life.lifecycle hsteps, fun hrun i => ?_⟩
    obtain ⟨hcloses, hterminates⟩ := hall hrun
    rw [Life.count_of_steps hsteps (by simp), Life.count_of_steps hsteps (by simp)]
    show (if i < l.closes then 1 else 0) = _ ∧ (if i < l.terminates then 1 else 0) = _
    rw [hcloses, hterminates]
    exact ⟨rfl, rfl⟩
  · have hplain := h.not_plain
    unfold Chain.Plain at hplain
    push Not at hplain
    simpa only [ne_eq, Bool.not_eq_false] using hplain

/-- A source with an event 3, a time window of 2, and a sink. -/
def oneWindow : Chain (List (Event Record)) :=
  [.source (.create (fun u => (u.head?, u.tail)) [eventAt 3] 0 1),
    .timeWindow (.create (timeTumblingWindow 2) (fun u es => (es.headD (eventAt 0), u)) [] none),
    .sink ⟨fun u _ => u, []⟩]

/-- `run()` up to the end of the source, and `run(1)`, which leaves the window and its result to the
closes. -/
theorem trace_lifecycle_oneWindow :
    ((∃ n, ∀ fuel, n ≤ fuel →
        (runPulls .untilDone fuel oneWindow [none, none]).isSome = true) ∧
      (∀ i, (trace .untilDone 4 oneWindow [none, none]).count (i, .close) =
          (if i < 3 then 1 else 0) ∧
        (trace .untilDone 4 oneWindow [none, none]).count (i, .terminate) =
          if i < 3 then 1 else 0) ∧
      Life.Lifecycle (trace .untilDone 4 oneWindow [none, none])) ∧
    ((∃ n, ∀ fuel, n ≤ fuel → (runPulls .count fuel oneWindow [none]).isSome = true) ∧
      (∀ i, (trace .count 4 oneWindow [none]).count (i, .close) = (if i < 3 then 1 else 0) ∧
        (trace .count 4 oneWindow [none]).count (i, .terminate) = if i < 3 then 1 else 0) ∧
      Life.Lifecycle (trace .count 4 oneWindow [none])) := by
  have hrun : ∀ mode reads, (runPulls mode 4 oneWindow reads).isSome = true →
      (∃ n, ∀ fuel, n ≤ fuel → (runPulls mode fuel oneWindow reads).isSome = true) ∧
      (∀ i, (trace mode 4 oneWindow reads).count (i, .close) = (if i < 3 then 1 else 0) ∧
        (trace mode 4 oneWindow reads).count (i, .terminate) = if i < 3 then 1 else 0) ∧
      Life.Lifecycle (trace mode 4 oneWindow reads) := by
    intro mode reads hsome
    obtain ⟨hall, hreturns, -⟩ := trace_lifecycle mode oneWindow reads
    obtain ⟨hlife, hcounts⟩ := hall 4
    refine ⟨hreturns.mpr fun hangs => ?_, hcounts hsome, hlife⟩
    rw [hangs_iff.mp hangs 4] at hsome
    cases hsome
  exact ⟨hrun .untilDone [none, none] (by decide), hrun .count [none] (by decide)⟩

end Pipeline

end

end Xtream
