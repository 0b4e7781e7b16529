import Xtream.Runtime.EventBuffer

/-!
# What an operator does to its surroundings

An operator's `execute` or `close` changes its own state and makes calls: on `next_`, on its output
channel, on a user function. The model returns these calls, in order, as a list of `Output`s; who
performs them (the rest of the chain, a channel) is decided where operators are composed.

User functions are `std::function`s: they may carry state of their own, here a value of `U`
(`captured`) that each call passes on.
-/

namespace Xtream

/-- An `InputChannel` of the run, by number. -/
abbrev ChannelId := Nat

/-- One call of a time window's function: the window end at which it is made, the events passed and
the result. -/
structure Firing where
  windowEnd : UInt64
  events : List (Event Record)
  result : Event Record
  deriving DecidableEq, Repr

/-- A firing without its result: the window end as a number and the events passed. -/
def Firing.call (f : Firing) : Nat × List (Event Record) := (f.windowEnd.toNat, f.events)

inductive Output
  /-- `next_->execute(elem)`. -/
  | next (elem : StreamElement)
  /-- `channel->write(e)`. -/
  | write (ch : ChannelId) (e : Event Record)
  /-- `channel->close()`. -/
  | closeChannel (ch : ChannelId)
  /-- A call of a time window's function. -/
  | fire (f : Firing)
  /-- A call of a sink's function. -/
  | sink (e : Event Record)
  deriving DecidableEq, Repr

/-- The timestamp as a number. -/
def time (e : Event Record) : Nat := e.timestamp.toNat

theorem time_lt (e : Event Record) : time e < 2 ^ 64 := e.timestamp.toNat_lt

/-- The calls a window makes to send a result downstream: its output channel, if it has one, is
written instead of `next_`. -/
def emit (outputChannel : Option ChannelId) (result : Event Record) : List Output :=
  match outputChannel with
  | some ch => [.write ch result]
  | none => [.next (.event result)]

end Xtream
