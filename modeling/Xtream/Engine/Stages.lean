import Xtream.Engine.Pipeline

/-!
# A chain as a sequence of stages

`Pipeline` runs a chain depth first: each element goes through all the operators before the next
one starts, and the operators close while those behind them are still open. Seen from the outside
the chain is a sequence of stages: the first operator takes the whole sequence of elements and its
`close`, the second one the whole sequence that the first sends on, and so on.

* `execute_cons`, `closeAll_cons`: what the depth-first calls do, one operator at a time;
* `runChain_cons`: the elements and the closes of a chain are one stage and the chain behind it;
* `runChain_filter`: what is kept of the calls, when the first operator makes none of them itself.
-/

namespace Xtream

/-- The element of a call of `next_`. -/
def Output.next? : Output → Option StreamElement
  | .next x => some x
  | _ => none

theorem Output.eq_next {o : Output} {x : StreamElement} (h : o.next? = some x) : o = .next x := by
  cases o with
  | next y => exact congrArg Output.next (Option.some.inj h)
  | _ => cases h

/-- The elements sent to `next_`. -/
def nexts (outs : List Output) : List StreamElement := outs.filterMap Output.next?

@[simp] theorem nexts_nil : nexts [] = [] := rfl

@[simp] theorem nexts_append (os os' : List Output) : nexts (os ++ os') = nexts os ++ nexts os' :=
  List.filterMap_append

@[simp] theorem nexts_map_next (xs : List StreamElement) : nexts (xs.map .next) = xs := by
  induction xs with
  | nil => rfl
  | cons x xs ih => exact congrArg (x :: ·) ih

/-- The event of a call of a sink's function. -/
def Output.sink? : Output → Option (Event Record)
  | .sink e => some e
  | _ => none

/-- The events that the sink receives. -/
def sinks (outs : List Output) : List (Event Record) := outs.filterMap Output.sink?

@[simp] theorem sinks_nil : sinks [] = [] := rfl

@[simp] theorem sinks_append (os os' : List Output) : sinks (os ++ os') = sinks os ++ sinks os' :=
  List.filterMap_append

namespace Chain

variable {U : Type}

/-! ## Delivering the calls of an operator -/

section

variable {next next' : Chain U → StreamElement → Option (Chain U × List Output)}

theorem deliver_of_next (next : Chain U → StreamElement → Option (Chain U × List Output))
    (ops : Chain U) (x : StreamElement) (outs : List Output) :
    deliver next ops (.next x :: outs) = (next ops x).bind fun r =>
      (deliver next r.1 outs).map fun s => (s.1, r.2 ++ s.2) := by
  cases h : next ops x with
  | none => simp [deliver, h]
  | some r => cases h' : deliver next r.1 outs <;> simp [deliver, h, h']

theorem deliver_of_other {o : Output} (h : o.next? = none) (ops : Chain U) (outs : List Output) :
    deliver next ops (o :: outs) = (deliver next ops outs).map fun s => (s.1, o :: s.2) := by
  cases o with
  | next x => cases h
  | _ => cases h' : deliver next ops outs <;> simp [deliver, h']

/-- Delivering two lists of calls is delivering the one and then the other. -/
theorem deliver_append (ops : Chain U) (os os' : List Output) :
    deliver next ops (os ++ os') = (deliver next ops os).bind fun r =>
      (deliver next r.1 os').map fun s => (s.1, r.2 ++ s.2) := by
  induction os generalizing ops with
  | nil =>
    cases h : deliver next ops os' <;> simp [deliver, h]
  | cons o os ih =>
    cases hn : o.next? with
    | some x =>
      obtain rfl := Output.eq_next hn
      rw [List.cons_append, deliver_of_next, deliver_of_next]
      cases h : next ops x with
      | none => rfl
      | some r =>
        simp only [Option.bind_some, ih]
        cases h1 : deliver next r.1 os with
        | none => rfl
        | some s =>
          cases h2 : deliver next s.1 os' <;> simp [h2]
    | none =>
      rw [List.cons_append, deliver_of_other hn, deliver_of_other hn, ih]
      cases h1 : deliver next ops os with
      | none => rfl
      | some s =>
        cases h2 : deliver next s.1 os' <;> simp [h2]

/-- An invariant of the chain behind an operator, with what it says about the calls. -/
theorem deliver_inv {P : Chain U → Prop} {Q : Output → Prop} {outs : List Output}
    (hnext : ∀ ops x r, P ops → next ops x = some r → P r.1 ∧ ∀ o ∈ r.2, Q o)
    (houts : ∀ o ∈ outs, o.next? = none → Q o) {ops : Chain U} (hops : P ops)
    {r : Chain U × List Output} (h : deliver next ops outs = some r) :
    P r.1 ∧ ∀ o ∈ r.2, Q o := by
  induction outs generalizing ops r with
  | nil =>
    cases h
    exact ⟨hops, fun o ho => by cases ho⟩
  | cons o outs ih =>
    obtain ⟨ho, hrest⟩ := List.forall_mem_cons.mp houts
    cases hn : o.next? with
    | some x =>
      obtain rfl := Output.eq_next hn
      rw [deliver_of_next, Option.bind_eq_some_iff] at h
      obtain ⟨s, hs, h⟩ := h
      obtain ⟨t, ht, rfl⟩ := Option.map_eq_some_iff.mp h
      obtain ⟨hP, hQ⟩ := hnext ops x s hops hs
      obtain ⟨hP', hQ'⟩ := ih hrest hP ht
      exact ⟨hP', fun o ho => (List.mem_append.mp ho).elim (hQ o) (hQ' o)⟩
    | none =>
      rw [deliver_of_other hn] at h
      obtain ⟨t, ht, rfl⟩ := Option.map_eq_some_iff.mp h
      obtain ⟨hP', hQ'⟩ := ih hrest hops ht
      exact ⟨hP', List.forall_mem_cons.mpr ⟨ho hn, hQ'⟩⟩

/-- Two chains behind an operator that agree where an invariant holds. -/
theorem deliver_congr {P : Chain U → Prop}
    (hnext : ∀ ops x r, P ops → next ops x = some r → P r.1)
    (heq : ∀ ops x, P ops → next ops x = next' ops x) {ops : Chain U} (hops : P ops)
    (outs : List Output) : deliver next ops outs = deliver next' ops outs := by
  induction outs generalizing ops with
  | nil => rfl
  | cons o outs ih =>
    cases hn : o.next? with
    | some x =>
      obtain rfl := Output.eq_next hn
      rw [deliver_of_next, deliver_of_next, ← heq ops x hops]
      cases h : next ops x with
      | none => rfl
      | some r => rw [Option.bind_some, Option.bind_some, ih (hnext ops x r hops h)]
    | none => rw [deliver_of_other hn, deliver_of_other hn, ih hops]

/-- More fuel behind an operator. -/
theorem deliver_mono (hnext : ∀ ops x r, next ops x = some r → next' ops x = some r)
    {ops : Chain U} {outs : List Output} {r : Chain U × List Output}
    (h : deliver next ops outs = some r) : deliver next' ops outs = some r := by
  induction outs generalizing ops r with
  | nil => exact h
  | cons o outs ih =>
    cases hn : o.next? with
    | some x =>
      obtain rfl := Output.eq_next hn
      rw [deliver_of_next, Option.bind_eq_some_iff] at h ⊢
      obtain ⟨s, hs, h⟩ := h
      obtain ⟨t, ht, rfl⟩ := Option.map_eq_some_iff.mp h
      exact ⟨s, hnext ops x s hs, by rw [ih ht]; rfl⟩
    | none =>
      rw [deliver_of_other hn] at h ⊢
      obtain ⟨t, ht, rfl⟩ := Option.map_eq_some_iff.mp h
      rw [ih ht]
      rfl

/-- What is kept of the calls, when the operator makes none of them itself: it is enough to deliver
the elements. -/
theorem deliver_filter {keep : Output → Bool} {outs : List Output}
    (h : ∀ o ∈ outs, o.next? = none → keep o = false) (ops : Chain U) :
    (deliver next ops outs).map (fun r => (r.1, r.2.filter keep)) =
      (deliver next ops ((nexts outs).map .next)).map fun r => (r.1, r.2.filter keep) := by
  induction outs generalizing ops with
  | nil => rfl
  | cons o outs ih =>
    obtain ⟨ho, houts⟩ := List.forall_mem_cons.mp h
    cases hn : o.next? with
    | some x =>
      obtain rfl := Output.eq_next hn
      have hnexts : nexts (.next x :: outs) = x :: nexts outs := rfl
      rw [hnexts, List.map_cons, deliver_of_next, deliver_of_next]
      cases h1 : next ops x with
      | none => rfl
      | some r =>
        have hih := ih houts r.1
        simp only [Option.bind_some, Option.map_map]
        cases h2 : deliver next r.1 outs with
        | none =>
          rw [h2, Option.map_none, eq_comm, Option.map_eq_none_iff] at hih
          rw [hih]
        | some s =>
          rw [h2, Option.map_some] at hih
          obtain ⟨t, ht, heq⟩ := Option.map_eq_some_iff.mp hih.symm
          injection heq with h3 h4
          rw [ht]
          simp [List.filter_append, h3, h4]
    | none =>
      have hnexts : nexts (o :: outs) = nexts outs := List.filterMap_cons_none hn
      rw [hnexts, deliver_of_other hn, ← ih houts, Option.map_map]
      refine congrArg (fun f => Option.map f _) (funext fun r => ?_)
      simp [ho hn]

end

/-! ## One operator and the chain behind it -/

theorem executeAt_length (fuel : Nat) {depth : Nat} {read : Option (Event Record)}
    {ops : Chain U} {x : StreamElement} {r : Chain U × List Output}
    (h : executeAt fuel depth read ops x = some r) : r.1.length = ops.length := by
  induction depth generalizing read ops x r with
  | zero =>
    cases ops with
    | nil =>
      cases h
      rfl
    | cons op rest => cases h
  | succ depth ih =>
    cases ops with
    | nil =>
      cases h
      rfl
    | cons op rest =>
      obtain ⟨r', -, h⟩ := Option.bind_eq_some_iff.mp h
      obtain ⟨s, hs, h⟩ := Option.bind_eq_some_iff.mp h
      cases h
      have := deliver_inv (P := fun ops => ops.length = rest.length) (Q := fun _ => True)
        (fun ops y t hops ht => ⟨(ih ht).trans hops, fun _ _ => trivial⟩) (fun _ _ _ => trivial)
        rfl hs
      simp [this.1]

theorem execute_length {fuel : Nat} {read : Option (Event Record)} {ops : Chain U}
    {x : StreamElement} {r : Chain U × List Output} (h : execute fuel read ops x = some r) :
    r.1.length = ops.length := executeAt_length fuel h

theorem deliver_length {fuel : Nat} {ops : Chain U} {outs : List Output}
    {r : Chain U × List Output} (h : deliver (execute fuel none) ops outs = some r) :
    r.1.length = ops.length :=
  (deliver_inv (P := fun ops' => ops'.length = ops.length) (Q := fun _ => True)
    (fun _ _ _ hops ht => ⟨(execute_length ht).trans hops, fun _ _ => trivial⟩)
    (fun _ _ _ => trivial) rfl h).1

@[simp] theorem execute_nil (fuel : Nat) (read : Option (Event Record)) (x : StreamElement) :
    execute fuel read ([] : Chain U) x = some ([], []) := rfl

/-- `execute` of a chain: the first operator, then what it calls. -/
theorem execute_cons (fuel : Nat) (read : Option (Event Record)) (op : PhysicalOperator U)
    (rest : Chain U) (x : StreamElement) :
    execute fuel read (op :: rest) x = (op.execute fuel (!rest.isEmpty) read x).bind fun r =>
      (deliver (execute fuel none) rest r.2).map fun s => (r.1 :: s.1, s.2) := by
  have hdeliver : ∀ outs, deliver (executeAt fuel rest.length none) rest outs =
      deliver (execute fuel none) rest outs := by
    intro outs
    refine deliver_congr (P := fun ops : Chain U => ops.length = rest.length)
      (fun ops y r hops hr => (executeAt_length fuel hr).trans hops) (fun ops y hops => ?_) rfl outs
    rw [execute, hops]
  show (op.execute fuel (!rest.isEmpty) read x).bind _ = _
  cases h : op.execute fuel (!rest.isEmpty) read x with
  | none => rfl
  | some r =>
    rw [Option.bind_some, Option.bind_some]
    show (deliver (executeAt fuel rest.length none) rest r.2).bind _ = _
    rw [hdeliver]
    cases deliver (execute fuel none) rest r.2 <;> rfl

theorem closeAt_length {fuel k : Nat} {ops : Chain U} {r : Chain U × List Output}
    (h : closeAt fuel k ops = some r) : r.1.length = ops.length := by
  induction k generalizing ops r with
  | zero =>
    cases ops with
    | nil =>
      cases h
      rfl
    | cons op rest =>
      obtain ⟨r', -, h⟩ := Option.bind_eq_some_iff.mp h
      obtain ⟨s, hs, h⟩ := Option.bind_eq_some_iff.mp h
      cases h
      simp [deliver_length hs]
  | succ k ih =>
    cases ops with
    | nil =>
      cases h
      rfl
    | cons op rest =>
      obtain ⟨s, hs, h⟩ := Option.bind_eq_some_iff.mp h
      cases h
      simp [ih hs]

theorem closeFrom_length {fuel n k : Nat} {ops : Chain U} {r : Chain U × List Output}
    (h : closeFrom fuel n k ops = some r) : r.1.length = ops.length := by
  induction n generalizing k ops r with
  | zero =>
    cases h
    rfl
  | succ n ih =>
    obtain ⟨s, hs, h⟩ := Option.bind_eq_some_iff.mp h
    obtain ⟨t, ht, h⟩ := Option.bind_eq_some_iff.mp h
    cases h
    exact (ih ht).trans (closeAt_length hs)

/-- `close` of the first operator: its own, then what it calls. -/
theorem closeAt_zero (fuel : Nat) (op : PhysicalOperator U) (rest : Chain U) :
    closeAt fuel 0 (op :: rest) = (op.close fuel).bind fun r =>
      (deliver (execute fuel none) rest r.2).map fun s => (r.1 :: s.1, s.2) := by
  show (op.close fuel).bind _ = _
  refine congrArg _ (funext fun r => ?_)
  cases deliver (execute fuel none) rest r.2 <;> rfl

theorem closeAt_succ (fuel k : Nat) (op : PhysicalOperator U) (rest : Chain U) :
    closeAt fuel (k + 1) (op :: rest) =
      (closeAt fuel k rest).map fun s => (op :: s.1, s.2) := by
  show (closeAt fuel k rest).bind _ = _
  cases closeAt fuel k rest <;> rfl

theorem closeFrom_next (fuel n k : Nat) (ops : Chain U) :
    closeFrom fuel (n + 1) k ops = (closeAt fuel k ops).bind fun r =>
      (closeFrom fuel n (k + 1) r.1).map fun s => (s.1, r.2 ++ s.2) := by
  show (closeAt fuel k ops).bind _ = _
  refine congrArg _ (funext fun r => ?_)
  cases closeFrom fuel n (k + 1) r.1 <;> rfl

/-- Closing operators behind the first leaves the first alone. -/
theorem closeFrom_succ (fuel n k : Nat) (op : PhysicalOperator U) (rest : Chain U) :
    closeFrom fuel n (k + 1) (op :: rest) =
      (closeFrom fuel n k rest).map fun s => (op :: s.1, s.2) := by
  induction n generalizing k rest with
  | zero => rfl
  | succ n ih =>
    rw [closeFrom_next, closeFrom_next, closeAt_succ]
    cases closeAt fuel k rest with
    | none => rfl
    | some r =>
      simp only [Option.map_some, Option.bind_some, ih]
      cases closeFrom fuel n (k + 1) r.1 <;> rfl

@[simp] theorem closeAll_nil (fuel : Nat) : closeAll fuel ([] : Chain U) = some ([], []) := rfl

/-- The closes of a chain: the first operator, what it calls, then the closes behind it. -/
theorem closeAll_cons (fuel : Nat) (op : PhysicalOperator U) (rest : Chain U) :
    closeAll fuel (op :: rest) = (op.close fuel).bind fun r =>
      (deliver (execute fuel none) rest r.2).bind fun s =>
        (closeAll fuel s.1).map fun t => (r.1 :: t.1, s.2 ++ t.2) := by
  rw [closeAll, List.length_cons, closeFrom_next, closeAt_zero]
  cases op.close fuel with
  | none => rfl
  | some r =>
    rw [Option.bind_some, Option.bind_some]
    cases hs : deliver (execute fuel none) rest r.2 with
    | none => rfl
    | some s =>
      rw [Option.map_some, Option.bind_some, Option.bind_some, closeFrom_succ, closeAll,
        deliver_length hs, Option.map_map]
      rfl

end Chain

/-! ## Stages -/

namespace PhysicalOperator

variable {U : Type}

/-- The operator takes its input from outside the chain. -/
def isSource : PhysicalOperator U → Bool
  | source _ => true
  | channelSource _ => true
  | _ => false

/-- The elements, one `execute` after the other. -/
def feed (fuel : Nat) : PhysicalOperator U → List StreamElement →
    Option (PhysicalOperator U × List Output)
  | op, [] => some (op, [])
  | op, x :: xs => do
    let r ← op.execute fuel true none x
    let s ← feed fuel r.1 xs
    return (s.1, r.2 ++ s.2)

/-- The elements, then `close`: all the operator calls. -/
def stage (fuel : Nat) (op : PhysicalOperator U) (xs : List StreamElement) :
    Option (List Output) := do
  let r ← op.feed fuel xs
  let s ← r.1.close fuel
  return r.2 ++ s.2

theorem execute_of_not_source {op : PhysicalOperator U} (h : op.isSource = false) (fuel : Nat)
    (hasNext : Bool) (read : Option (Event Record)) (x : StreamElement) :
    op.execute fuel hasNext read x = op.execute fuel true none x := by
  cases op with
  | source op => cases h
  | channelSource op => cases h
  | _ => rfl

theorem execute_isSource {op : PhysicalOperator U} {fuel : Nat} {hasNext : Bool}
    {read : Option (Event Record)} {x : StreamElement} {r : PhysicalOperator U × List Output}
    (h : op.execute fuel hasNext read x = some r) : r.1.isSource = op.isSource := by
  cases op with
  | timeWindow op =>
    obtain ⟨s, -, rfl⟩ := Option.map_eq_some_iff.mp h
    rfl
  | _ =>
    cases h
    rfl

end PhysicalOperator

namespace Chain

variable {U : Type}

/-- The elements, one `execute` after the other. -/
def feed (fuel : Nat) (ops : Chain U) (xs : List StreamElement) :
    Option (Chain U × List Output) :=
  deliver (execute fuel none) ops (xs.map .next)

/-- The elements, then the closes: all that reaches the outside. -/
def runChain (fuel : Nat) (ops : Chain U) (xs : List StreamElement) : Option (List Output) := do
  let r ← feed fuel ops xs
  let s ← closeAll fuel r.1
  return r.2 ++ s.2

theorem runChain_eq (fuel : Nat) (ops : Chain U) (xs : List StreamElement) :
    runChain fuel ops xs = (feed fuel ops xs).bind fun r =>
      (closeAll fuel r.1).map fun s => r.2 ++ s.2 := by
  show (feed fuel ops xs).bind _ = _
  refine congrArg (Option.bind _) (funext fun r => ?_)
  cases closeAll fuel r.1 <;> rfl

/-- Elements through a chain: all of them through the first operator, then what it calls. -/
theorem feed_cons (fuel : Nat) {op : PhysicalOperator U} (hop : op.isSource = false)
    (rest : Chain U) (xs : List StreamElement) :
    feed fuel (op :: rest) xs = (op.feed fuel xs).bind fun r =>
      (deliver (execute fuel none) rest r.2).map fun s => (r.1 :: s.1, s.2) := by
  induction xs generalizing op rest with
  | nil => rfl
  | cons x xs ih =>
    show deliver (execute fuel none) (op :: rest) (.next x :: xs.map .next) =
      ((op.execute fuel true none x).bind _).bind _
    rw [deliver_of_next, execute_cons, PhysicalOperator.execute_of_not_source hop]
    cases hr : op.execute fuel true none x with
    | none => rfl
    | some r =>
      have hop' : r.1.isSource = false := by rw [PhysicalOperator.execute_isSource hr, hop]
      simp only [Option.bind_some]
      cases hs : deliver (execute fuel none) rest r.2 with
      | none =>
        -- the first operator may go on, but its first calls already fail
        show none = ((r.1.feed fuel xs).bind fun s => some (s.1, r.2 ++ s.2)).bind _
        cases r.1.feed fuel xs with
        | none => rfl
        | some t => simp [deliver_append, hs]
      | some s =>
        simp only [Option.map_some, Option.bind_some]
        show (feed fuel (r.1 :: s.1) xs).map _ =
          ((r.1.feed fuel xs).bind fun s => some (s.1, r.2 ++ s.2)).bind _
        rw [ih hop']
        cases r.1.feed fuel xs with
        | none => rfl
        | some t =>
          simp only [Option.bind_some, deliver_append, hs]
          cases deliver (execute fuel none) s.1 t.2 <;> rfl

@[simp] theorem runChain_nil (fuel : Nat) (xs : List StreamElement) :
    runChain fuel ([] : Chain U) xs = some [] := by
  have hfeed : feed fuel ([] : Chain U) xs = some ([], []) := by
    unfold feed
    induction xs with
    | nil => rfl
    | cons x xs ih =>
      rw [List.map_cons, deliver_of_next, execute_nil, Option.bind_some, ih]
      rfl
  unfold runChain
  rw [hfeed]
  rfl

/-- A chain is its first stage and the chain behind it. -/
theorem runChain_cons (fuel : Nat) {op : PhysicalOperator U} (hop : op.isSource = false)
    (rest : Chain U) (xs : List StreamElement) :
    runChain fuel (op :: rest) xs = (op.stage fuel xs).bind fun outs =>
      (deliver (execute fuel none) rest outs).bind fun s =>
        (closeAll fuel s.1).map fun t => s.2 ++ t.2 := by
  unfold runChain PhysicalOperator.stage
  rw [feed_cons fuel hop]
  simp only [Option.bind_eq_bind, Option.pure_def]
  cases op.feed fuel xs with
  | none => rfl
  | some r =>
    simp only [Option.bind_some]
    cases hs : deliver (execute fuel none) rest r.2 with
    | none =>
      cases r.1.close fuel with
      | none => rfl
      | some c => simp [deliver_append, hs]
    | some s =>
      simp only [Option.map_some, Option.bind_some, closeAll_cons]
      cases r.1.close fuel with
      | none => rfl
      | some c =>
        simp only [Option.bind_some, deliver_append, hs]
        cases deliver (execute fuel none) s.1 c.2 with
        | none => rfl
        | some d =>
          simp only [Option.bind_some, Option.map_some]
          cases closeAll fuel d.1 <;> simp

/-- What is kept of a chain's calls, when the first stage makes none of them itself: what is
kept of the chain behind it, on the elements that the first stage sends on. -/
theorem runChain_filter (fuel : Nat) {op : PhysicalOperator U} (hop : op.isSource = false)
    (rest : Chain U) (xs : List StreamElement) {keep : Output → Bool}
    (hkeep : ∀ outs, op.stage fuel xs = some outs → ∀ o ∈ outs, o.next? = none → keep o = false) :
    (runChain fuel (op :: rest) xs).map (List.filter keep) =
      (op.stage fuel xs).bind fun outs =>
        (runChain fuel rest (nexts outs)).map (List.filter keep) := by
  rw [runChain_cons fuel hop]
  cases houts : op.stage fuel xs with
  | none => rfl
  | some outs =>
    have h := @deliver_filter _ (execute fuel none) _ _ (hkeep outs houts) rest
    simp only [Option.bind_some, runChain, Option.bind_eq_bind, Option.pure_def]
    show _ = ((deliver (execute fuel none) rest ((nexts outs).map .next)).bind _).map _
    cases h1 : deliver (execute fuel none) rest outs with
    | none =>
      rw [h1, Option.map_none, eq_comm, Option.map_eq_none_iff] at h
      rw [h]
      rfl
    | some s =>
      rw [h1, Option.map_some] at h
      obtain ⟨t, ht, heq⟩ := Option.map_eq_some_iff.mp h.symm
      injection heq with h3 h4
      rw [ht]
      simp only [Option.bind_some, h3]
      cases closeAll fuel s.1 with
      | none => rfl
      | some c => simp [List.filter_append, h4]

theorem filterMap_filter_isSome {β : Type} (f : Output → Option β) (outs : List Output) :
    (outs.filter fun o => (f o).isSome).filterMap f = outs.filterMap f := by
  induction outs with
  | nil => rfl
  | cons o outs ih =>
    cases h : f o with
    | none => simp [h, ih]
    | some b => simp [h, ih]

/-- What is read off a chain's calls, when it is nothing on the calls of the first stage. -/
theorem runChain_filterMap (fuel : Nat) {op : PhysicalOperator U} (hop : op.isSource = false)
    (rest : Chain U) (xs : List StreamElement) {β : Type} {f : Output → Option β}
    (hf : ∀ outs, op.stage fuel xs = some outs → ∀ o ∈ outs, o.next? = none → f o = none) :
    (runChain fuel (op :: rest) xs).map (List.filterMap f) =
      (op.stage fuel xs).bind fun outs =>
        (runChain fuel rest (nexts outs)).map (List.filterMap f) := by
  have h := @runChain_filter U fuel op hop rest xs (fun o => (f o).isSome)
    fun outs houts o ho hn => by rw [hf outs houts o ho hn]; rfl
  have h' := congrArg (Option.map (List.filterMap f)) h
  rw [Option.map_map, Option.map_bind] at h'
  have hfilter : List.filterMap f ∘ List.filter (fun o => (f o).isSome) = List.filterMap f :=
    funext (filterMap_filter_isSome f)
  rw [hfilter] at h'
  rw [h']
  refine congrArg (Option.bind _) (funext fun outs => ?_)
  rw [Function.comp_apply, Option.map_map, hfilter]

/-- The calls of an operator behind which nothing stands. -/
theorem deliver_nil {fuel : Nat} (outs : List Output) :
    deliver (execute fuel none) ([] : Chain U) outs =
      some ([], outs.filter fun o => o.next?.isNone) := by
  induction outs with
  | nil => rfl
  | cons o outs ih =>
    cases hn : o.next? with
    | some x =>
      obtain rfl := Output.eq_next hn
      rw [deliver_of_next, execute_nil, Option.bind_some, ih]
      rfl
    | none =>
      rw [deliver_of_other hn, ih, List.filter_cons_of_pos (by rw [hn]; rfl)]
      rfl

/-- A chain of one operator. -/
theorem runChain_singleton (fuel : Nat) {op : PhysicalOperator U} (hop : op.isSource = false)
    (xs : List StreamElement) : runChain fuel [op] xs =
      (op.stage fuel xs).map (List.filter fun o => o.next?.isNone) := by
  rw [runChain_cons fuel hop]
  cases op.stage fuel xs with
  | none => rfl
  | some outs =>
    rw [Option.bind_some, deliver_nil]
    simp

end Chain

end Xtream
