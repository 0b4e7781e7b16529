import Xtream.Engine.Stages

/-!
# The calls of a run

A trace lists the methods called on the operators of a chain, each with the position of the
operator, in the order in which the calls begin. A call of `next_` inside `execute` or `close`
stands behind the call it is made in. The loops of a time window call `next_` round by round, so a
window that does not return has a trace as well: `outputsWithin` is what it calls within the fuel.

The pulls of the root are a list, with what the channel of a channel source returns each time: a
`read` that waits for ever, a stop request and a count of events all end the list.

* `PhysicalOperator.outputsWithin_eq`, `closeOutputsWithin_eq`: a method that returns has called
  what the model of the operators says;
* `Pipeline.run_runPulls`: `run` is a run over some pulls.
-/

namespace Xtream

/-- The virtual methods that a pipeline calls. -/
inductive Method
  | setup
  | open_
  | execute (elem : StreamElement)
  | close
  | terminate
  deriving DecidableEq, Repr

/-- The methods called, each with the position of the operator. -/
abbrev Trace := List (Nat × Method)

namespace TimeWindowPhysicalOperator

variable {U : Type}

/-- The firings of `execute` within the fuel. -/
def firingsWithin (fuel : Nat) (op : TimeWindowPhysicalOperator U) : StreamElement → List Firing
  | .event _ => []
  | .watermark wm =>
    if !op.windowInitialized then []
    else (While.reach (fun s : LoopState U => s.1.nextWindowEnd ≤ wm.timestamp)
      (watermarkRound wm) fuel (op, [])).2

/-- The firings of `close` within the fuel. -/
def flushedWithin (fuel : Nat) (op : TimeWindowPhysicalOperator U) : List Firing :=
  if op.windowInitialized then
    (While.reach (fun s : LoopState U => !s.1.buffer.empty) (While.pure flushRound) fuel
      (op, [])).2
  else []

theorem firingsWithin_eq {fuel : Nat} {op : TimeWindowPhysicalOperator U} {x : StreamElement}
    {s : LoopState U} (h : op.consume fuel x = some s) : op.firingsWithin fuel x = s.2 := by
  cases x with
  | event e =>
    cases h
    rfl
  | watermark wm =>
    change onWatermark fuel op wm = some s at h
    unfold onWatermark at h
    unfold firingsWithin
    split at h
    · rename_i hinit
      cases h
      exact if_pos hinit
    · rename_i hinit
      obtain ⟨t, ht, h⟩ := Option.bind_eq_some_iff.mp h
      cases h
      have hreach := congrArg Prod.snd (While.reach_of_run ht)
      exact (if_neg hinit).trans hreach

theorem flushedWithin_eq {fuel : Nat} {op : TimeWindowPhysicalOperator U} {s : LoopState U}
    (h : op.flush fuel = some s) : op.flushedWithin fuel = s.2 := by
  unfold flush at h
  unfold flushedWithin
  split at h
  · rename_i hinit
    exact (if_pos hinit).trans (congrArg Prod.snd (While.reach_of_run h))
  · rename_i hinit
    cases h
    exact if_neg hinit

end TimeWindowPhysicalOperator

namespace PhysicalOperator

variable {U : Type}

/-- What `execute` calls within the fuel. -/
def outputsWithin (fuel : Nat) (hasNext : Bool) (read : Option (Event Record))
    (elem : StreamElement) : PhysicalOperator U → List Output
  | timeWindow op => op.outputs (op.firingsWithin fuel elem)
  | op => ((op.execute fuel hasNext read elem).map Prod.snd).getD []

/-- What `close` calls within the fuel. -/
def closeOutputsWithin (fuel : Nat) : PhysicalOperator U → List Output
  | timeWindow op =>
    op.outputs (op.flushedWithin fuel) ++
      if (op.flush fuel).isSome then op.outputChannel.toList.map .closeChannel else []
  | op => ((op.close fuel).map Prod.snd).getD []

/-- A method that returns has called what `execute` says. -/
theorem outputsWithin_eq {fuel : Nat} {hasNext : Bool} {read : Option (Event Record)}
    {x : StreamElement} {op : PhysicalOperator U} {r : PhysicalOperator U × List Output}
    (h : op.execute fuel hasNext read x = some r) : op.outputsWithin fuel hasNext read x = r.2 := by
  cases op with
  | timeWindow op =>
    obtain ⟨s, hs, h⟩ := Option.map_eq_some_iff.mp h
    obtain ⟨t, ht, hs⟩ := Option.bind_eq_some_iff.mp hs
    cases hs
    cases h
    exact congrArg op.outputs (op.firingsWithin_eq ht)
  | _ =>
    cases h
    rfl

theorem closeOutputsWithin_eq {fuel : Nat} {op : PhysicalOperator U}
    {r : PhysicalOperator U × List Output} (h : op.close fuel = some r) :
    op.closeOutputsWithin fuel = r.2 := by
  cases op with
  | timeWindow op =>
    obtain ⟨s, hs, h⟩ := Option.map_eq_some_iff.mp h
    obtain ⟨t, ht, hs⟩ := Option.bind_eq_some_iff.mp hs
    cases hs
    cases h
    simp [closeOutputsWithin, op.flushedWithin_eq ht, ht]
  | _ =>
    cases h
    rfl

end PhysicalOperator

namespace Chain

variable {U : Type}

/-- The calls that an operator's calls of `next_` lead to. -/
def deliverTrace (fuel : Nat) (trace : Chain U → StreamElement → Trace) :
    Chain U → List Output → Trace
  | _, [] => []
  | ops, .next x :: outs =>
    trace ops x ++
      match execute fuel none ops x with
      | none => []
      | some r => deliverTrace fuel trace r.1 outs
  | ops, _ :: outs => deliverTrace fuel trace ops outs

/-- The calls of `execute` of the first operator, which stands at a position. -/
def executeTraceAt (fuel : Nat) : Nat → Nat → Option (Event Record) → Chain U → StreamElement →
    Trace
  | _, _, _, [], _ => []
  | 0, _, _, _ :: _, _ => []
  | depth + 1, pos, read, op :: rest, x =>
    (pos, .execute x) :: deliverTrace fuel (executeTraceAt fuel depth (pos + 1) none) rest
      (op.outputsWithin fuel (!rest.isEmpty) read x)

def executeTrace (fuel pos : Nat) (read : Option (Event Record)) (ops : Chain U)
    (x : StreamElement) : Trace :=
  executeTraceAt fuel ops.length pos read ops x

/-- The calls of `close` of the operator at a position of the chain. -/
def closeTraceAt (fuel : Nat) : Nat → Nat → Chain U → Trace
  | _, _, [] => []
  | pos, 0, op :: rest =>
    (pos, .close) :: deliverTrace fuel (executeTrace fuel (pos + 1) none) rest
      (op.closeOutputsWithin fuel)
  | pos, k + 1, _ :: rest => closeTraceAt fuel (pos + 1) k rest

/-- The calls of `close` of `n` operators, from a position on. -/
def closeTraceFrom (fuel : Nat) : Nat → Nat → Chain U → Trace
  | 0, _, _ => []
  | n + 1, k, ops =>
    closeTraceAt fuel 0 k ops ++
      match closeAt fuel k ops with
      | none => []
      | some r => closeTraceFrom fuel n (k + 1) r.1

end Chain

namespace Pipeline

variable {U : Type}

/-- `run()` ends its loop when the root is done, `run(n)` does not. -/
inductive Mode
  | untilDone
  | count
  deriving DecidableEq, Repr

def Mode.stops : Mode → Chain U → Bool
  | untilDone, ops => Chain.isDone ops
  | count, _ => false

/-- The chain after the loop over the pulls. -/
def pulls (mode : Mode) (fuel : Nat) : Chain U → List (Option (Event Record)) → Option (Chain U)
  | ops, [] => some ops
  | ops, read :: reads => do
    let r ← Chain.execute fuel read ops dummy
    if mode.stops r.1 then return r.1 else pulls mode fuel r.1 reads

/-- The number of pulls in the loop. -/
def pullCount (mode : Mode) (fuel : Nat) : Chain U → List (Option (Event Record)) → Nat
  | _, [] => 0
  | ops, read :: reads =>
    match Chain.execute fuel read ops dummy with
    | none => 1
    | some r => if mode.stops r.1 then 1 else pullCount mode fuel r.1 reads + 1

/-- The calls of the loop. -/
def pullsTrace (mode : Mode) (fuel : Nat) : Chain U → List (Option (Event Record)) → Trace
  | _, [] => []
  | ops, read :: reads =>
    Chain.executeTrace fuel 0 read ops dummy ++
      match Chain.execute fuel read ops dummy with
      | none => []
      | some r => if mode.stops r.1 then [] else pullsTrace mode fuel r.1 reads

/-- `walk` with a method that calls nothing. -/
def walk (m : Method) (ops : Chain U) : Trace := (List.range ops.length).map fun i => (i, m)

/-- `run()` or `run(n)`, with the pulls of the loop: the chain at the end. -/
def runPulls (mode : Mode) (fuel : Nat) (ops : Chain U) (reads : List (Option (Event Record))) :
    Option (Chain U) := do
  let ops ← pulls mode fuel ops reads
  let r ← Chain.closeAll fuel ops
  return r.1

/-- All the calls of a run. -/
def trace (mode : Mode) (fuel : Nat) (ops : Chain U) (reads : List (Option (Event Record))) :
    Trace :=
  walk .setup ops ++ walk .open_ ops ++ pullsTrace mode fuel ops reads ++
    match pulls mode fuel ops reads with
    | none => []
    | some ops' =>
      Chain.closeTraceFrom fuel ops'.length 0 ops' ++
        match Chain.closeAll fuel ops' with
        | none => []
        | some r => walk .terminate r.1

theorem runLoop_pulls {fuel rounds : Nat} {ops : Chain U} {chs : Channels}
    {r : Chain U × Channels × List Output} (h : runLoop fuel rounds ops chs = some r) :
    ∃ reads, pulls .untilDone fuel ops reads = some r.1 := by
  induction rounds generalizing ops chs r with
  | zero => cases h
  | succ rounds ih =>
    obtain ⟨s, hs, h⟩ := Option.bind_eq_some_iff.mp h
    cases ops with
    | nil => cases hs
    | cons op rest =>
      obtain ⟨read, -, hs⟩ := Option.bind_eq_some_iff.mp hs
      obtain ⟨t, ht, hs⟩ := Option.bind_eq_some_iff.mp hs
      cases hs
      have hpull : ∀ reads, pulls .untilDone fuel (op :: rest) (read.1 :: reads) =
          if Chain.isDone t.1 then some t.1 else pulls .untilDone fuel t.1 reads := by
        intro reads
        show (Chain.execute fuel read.1 (op :: rest) dummy).bind _ = _
        rw [ht]
        rfl
      split at h
      · rename_i hdone
        cases h
        exact ⟨[read.1], (hpull []).trans (if_pos hdone)⟩
      · rename_i hdone
        obtain ⟨u, hu, h⟩ := Option.bind_eq_some_iff.mp h
        cases h
        obtain ⟨reads, hreads⟩ := ih hu
        exact ⟨read.1 :: reads, ((hpull reads).trans (if_neg hdone)).trans hreads⟩

/-- `run` is a run over some pulls. -/
theorem run_runPulls {fuel : Nat} {ops : Chain U} {chs : Channels}
    {r : Chain U × Channels × List Output} (h : run fuel ops chs = some r) :
    ∃ reads, runPulls .untilDone fuel ops reads = some r.1 := by
  obtain ⟨s, hs, h⟩ := Option.bind_eq_some_iff.mp h
  obtain ⟨t, ht, h⟩ := Option.bind_eq_some_iff.mp h
  cases h
  obtain ⟨reads, hreads⟩ := runLoop_pulls hs
  refine ⟨reads, ?_⟩
  unfold runPulls
  simp [hreads, ht]

end Pipeline

end Xtream
