import Xtream.Core.Event

/-!
# The channel between two pipelines (`src/runtime/input_channel.h`)

Each operation holds the channel's mutex, so it is one atomic step. `read` waits on the condition
variable while the queue is empty and the channel is open: the model has no result then.
-/

namespace Xtream

structure InputChannel where
  queue : List (Event Record) := []
  closed : Bool := false
  deriving DecidableEq, Repr

namespace InputChannel

def write (c : InputChannel) (e : Event Record) : InputChannel := { c with queue := c.queue ++ [e] }

def close (c : InputChannel) : InputChannel := { c with closed := true }

/-- What `read` returns, with the channel after it; nothing while it waits. -/
def read (c : InputChannel) : Option (Option (Event Record) × InputChannel) :=
  match c.queue with
  | e :: queue => some (some e, { c with queue })
  | [] => if c.closed then some (none, c) else none

def isDone (c : InputChannel) : Bool := c.closed && c.queue.isEmpty

/-- A read returns nothing only at the end of a closed channel. -/
theorem read_none {c c' : InputChannel} (h : c.read = some (none, c')) :
    c.closed = true ∧ c.queue = [] ∧ c' = c := by
  unfold read at h
  split at h
  · cases h
  · rename_i hq
    split at h
    · rename_i hclosed
      cases h
      exact ⟨hclosed, hq, rfl⟩
    · cases h

end InputChannel

end Xtream
