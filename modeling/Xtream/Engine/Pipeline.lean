import Xtream.Operators.Physical
import Xtream.Runtime.InputChannel

/-!
# Pipelines (`src/engine/pipeline.h`)

A pipeline is the chain of operators reached from its root over `next_`. `execute` of an operator
calls `execute` of the next one for every element it sends on, and only then returns: `deliver`
follows these calls depth first. What reaches the outside (writes and closes of channels, calls of
sink and window functions) is returned as a list of `Output`s, in the order of the calls.

`run` is the loop of `Pipeline::run()` without a stop request: pull until the root is done, then
close the operators from the root on. It applies the channel calls to the channels of the run.
-/

namespace Xtream

/-- The operators of a pipeline, from the root on. -/
abbrev Chain (U : Type) := List (PhysicalOperator U)

/-- The channels of a run. -/
abbrev Channels := ChannelId → InputChannel

namespace Chain

variable {U : Type}

/-- The calls of one operator: an element goes to the chain behind it, `next`, the rest to the
outside. -/
def deliver (next : Chain U → StreamElement → Option (Chain U × List Output)) :
    Chain U → List Output → Option (Chain U × List Output)
  | ops, [] => some (ops, [])
  | ops, .next x :: outs => do
    let r ← next ops x
    let s ← deliver next r.1 outs
    return (s.1, r.2 ++ s.2)
  | ops, o :: outs => do
    let s ← deliver next ops outs
    return (s.1, o :: s.2)

/-- `execute` of the first operator, over at most `depth` operators. -/
def executeAt (fuel : Nat) : Nat → Option (Event Record) → Chain U → StreamElement →
    Option (Chain U × List Output)
  | _, _, [], _ => some ([], [])
  | 0, _, _ :: _, _ => none
  | depth + 1, read, op :: rest, elem => do
    let r ← op.execute fuel (!rest.isEmpty) read elem
    let s ← deliver (executeAt fuel depth none) rest r.2
    return (r.1 :: s.1, s.2)

/-- `execute` of the first operator. -/
def execute (fuel : Nat) (read : Option (Event Record)) (ops : Chain U) (elem : StreamElement) :
    Option (Chain U × List Output) :=
  executeAt fuel ops.length read ops elem

/-- `close` of the operator at a position. -/
def closeAt (fuel : Nat) : Nat → Chain U → Option (Chain U × List Output)
  | _, [] => some ([], [])
  | 0, op :: rest => do
    let r ← op.close fuel
    let s ← deliver (execute fuel none) rest r.2
    return (r.1 :: s.1, s.2)
  | k + 1, op :: rest => do
    let s ← closeAt fuel k rest
    return (op :: s.1, s.2)

/-- `close` of `n` operators, from a position on. -/
def closeFrom (fuel : Nat) : Nat → Nat → Chain U → Option (Chain U × List Output)
  | 0, _, ops => some (ops, [])
  | n + 1, k, ops => do
    let r ← closeAt fuel k ops
    let s ← closeFrom fuel n (k + 1) r.1
    return (s.1, r.2 ++ s.2)

/-- `walk` with `close`. -/
def closeAll (fuel : Nat) (ops : Chain U) : Option (Chain U × List Output) :=
  closeFrom fuel ops.length 0 ops

/-- `root_->is_done()`. -/
def isDone : Chain U → Bool
  | [] => false
  | op :: _ => op.isDone

/-- What a channel source at the root reads, with the channels after it; nothing while the `read`
waits. Other roots read nothing. -/
def read (ops : Chain U) (chs : Channels) : Option (Option (Event Record) × Channels) :=
  match ops.head?.bind PhysicalOperator.inputChannel with
  | none => some (none, chs)
  | some ch => (chs ch).read.map fun r => (r.1, Function.update chs ch r.2)

end Chain

/-- The effect of a call on the channels. -/
def perform (chs : Channels) : Output → Channels
  | .write ch e => Function.update chs ch ((chs ch).write e)
  | .closeChannel ch => Function.update chs ch (chs ch).close
  | _ => chs

namespace Pipeline

variable {U : Type}

/-- The element that `run` passes to the root. -/
def dummy : StreamElement := .event (eventAt 0)

/-- One round of the loop of `run`: `root_->execute(dummy)`. -/
def pull (fuel : Nat) (ops : Chain U) (chs : Channels) :
    Option (Chain U × Channels × List Output) :=
  match ops with
  | [] => none
  | op :: rest => do
    let r ← Chain.read (op :: rest) chs
    let s ← Chain.execute fuel r.1 (op :: rest) dummy
    return (s.1, s.2.foldl perform r.2, s.2)

/-- The loop of `run`, at most `rounds` rounds. -/
def runLoop (fuel : Nat) : Nat → Chain U → Channels → Option (Chain U × Channels × List Output)
  | 0, _, _ => none
  | rounds + 1, ops, chs => do
    let r ← pull fuel ops chs
    if Chain.isDone r.1 then return r
    else
      let s ← runLoop fuel rounds r.1 r.2.1
      return (s.1, s.2.1, r.2.2 ++ s.2.2)

/-- `Pipeline::run()`, without a stop request. -/
def run (fuel : Nat) (ops : Chain U) (chs : Channels) :
    Option (Chain U × Channels × List Output) := do
  let r ← runLoop fuel fuel ops chs
  let s ← Chain.closeAll fuel r.1
  return (s.1, s.2.foldl perform r.2.1, r.2.2 ++ s.2)

end Pipeline

end Xtream
