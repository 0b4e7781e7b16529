import Xtream.Engine.Shape
import Xtream.Source.Contract

/-!
# Runs of a pipeline from its root

* `run_source`: a pipeline with a source runs the chain behind it on the elements of the source;
* `run_channelSource`: a pipeline with a channel source, run after the channel has been filled and
  closed, runs the chain behind it on the events of the channel.

In both cases the channels at the end are what the calls of the chain make of them.
-/

namespace Xtream

/-! ## The channels of the calls -/

/-- The channel that a call uses. -/
def Output.channel? : Output → Option ChannelId
  | .write ch _ => some ch
  | .closeChannel ch => some ch
  | _ => none

/-- Calls that do not use a channel leave it as it is. -/
theorem foldl_perform_update {ch : ChannelId} {outs : List Output}
    (h : ∀ o ∈ outs, o.channel? ≠ some ch) (chs : Channels) (c : InputChannel) :
    outs.foldl perform (Function.update chs ch c) =
      Function.update (outs.foldl perform chs) ch c := by
  induction outs generalizing chs with
  | nil => rfl
  | cons o outs ih =>
    obtain ⟨ho, houts⟩ := List.forall_mem_cons.mp h
    rw [List.foldl_cons, List.foldl_cons, ← ih houts]
    refine congrArg (fun chs => outs.foldl perform chs) ?_
    cases o with
    | write ch' e =>
      have hne : ch' ≠ ch := fun heq => ho (congrArg some heq)
      simp only [perform, Function.update_of_ne hne]
      exact Function.update_comm hne.symm _ _ _
    | closeChannel ch' =>
      have hne : ch' ≠ ch := fun heq => ho (congrArg some heq)
      simp only [perform, Function.update_of_ne hne]
      exact Function.update_comm hne.symm _ _ _
    | _ => rfl

theorem foldl_perform_apply {ch : ChannelId} {outs : List Output}
    (h : ∀ o ∈ outs, o.channel? ≠ some ch) (chs : Channels) :
    outs.foldl perform chs ch = chs ch := by
  have hsame := foldl_perform_update h chs (chs ch)
  rw [Function.update_eq_self] at hsame
  rw [hsame, Function.update_self]

namespace Chain

variable {U : Type}

/-- What a chain calls uses its own channels only. -/
theorem Calls.channel {ops : Chain U} {o : Output} {ch : ChannelId} (h : Calls (shapes ops) o)
    (hch : o.channel? = some ch) : ch ∈ outputChannels ops := by
  cases o with
  | write ch' e =>
    cases hch
    exact h.write
  | closeChannel ch' => exact absurd h (not_calls_close _ _)
  | _ => cases hch

/-- Two sequences of elements, the one after the other. -/
theorem feed_append (fuel : Nat) (ops : Chain U) (xs ys : List StreamElement) :
    feed fuel ops (xs ++ ys) = (feed fuel ops xs).bind fun r =>
      (feed fuel r.1 ys).map fun s => (s.1, r.2 ++ s.2) := by
  unfold feed
  rw [List.map_append, deliver_append]

end Chain

namespace Pipeline

variable {U : Type}

open SourcePhysicalOperator (Yields forward_func execute_of_none execute_of_some)

theorem runLoop_succ (fuel rounds : Nat) (ops : Chain U) (chs : Channels) :
    runLoop fuel (rounds + 1) ops chs = (pull fuel ops chs).bind fun r =>
      if Chain.isDone r.1 then some r
      else (runLoop fuel rounds r.1 r.2.1).map fun s => (s.1, s.2.1, r.2.2 ++ s.2.2) := by
  show (pull fuel ops chs).bind _ = _
  refine congrArg (Option.bind _) (funext fun r => ?_)
  by_cases h : Chain.isDone r.1 = true
  · rw [if_pos h, if_pos h]
    rfl
  · rw [if_neg h, if_neg h]
    cases runLoop fuel rounds r.1 r.2.1 <;> rfl

theorem pull_cons (fuel : Nat) (op : PhysicalOperator U) (rest : Chain U) (chs : Channels) :
    pull fuel (op :: rest) chs = (Chain.read (op :: rest) chs).bind fun r =>
      (Chain.execute fuel r.1 (op :: rest) dummy).map fun s => (s.1, s.2.foldl perform r.2, s.2) := by
  show (Chain.read (op :: rest) chs).bind _ = _
  refine congrArg (Option.bind _) (funext fun r => ?_)
  show (Chain.execute fuel r.1 (op :: rest) dummy).bind _ = _
  cases Chain.execute fuel r.1 (op :: rest) dummy <;> rfl

/-! ## A source at the root -/

theorem pull_source (fuel : Nat) (s : SourcePhysicalOperator U) (rest : Chain U)
    (chs : Channels) : pull fuel (.source s :: rest) chs =
      (Chain.feed fuel rest (elements s.execute.2)).map fun r =>
        (.source s.execute.1 :: r.1, r.2.foldl perform chs, r.2) := by
  rw [pull_cons]
  show (Chain.execute fuel none (.source s :: rest) dummy).map _ = _
  rw [Chain.execute_cons]
  show ((Chain.feed fuel rest (elements s.execute.2)).map _).map _ = _
  rw [Option.map_map]
  rfl

/-- The loop of `run` pulls one event after the other. -/
theorem runLoop_source {fuel rounds : Nat} {s : SourcePhysicalOperator U}
    {es : List (Event Record)} (hdone : s.done = false) (hes : Yields s.func s.captured es)
    (hrounds : es.length + 1 ≤ rounds) (rest : Chain U) (chs : Channels) :
    runLoop fuel rounds (.source s :: rest) chs =
      (Chain.feed fuel rest (elements (s.executeTimes (es.length + 1)).2)).map fun r =>
        (.source (s.executeTimes (es.length + 1)).1 :: r.1, r.2.foldl perform chs, r.2) := by
  induction es generalizing s rounds rest chs with
  | nil =>
    obtain ⟨n, rfl⟩ := Nat.exists_eq_add_of_lt hrounds
    have htimes : s.executeTimes (0 + 1) =
        ({ s with captured := (s.func s.captured).2, done := true }, []) := by
      unfold SourcePhysicalOperator.executeTimes SourcePhysicalOperator.executeTimes
      rw [execute_of_none hes]
      rfl
    rw [runLoop_succ, pull_source, List.length_nil, htimes, execute_of_none hes]
    rfl
  | cons e es ih =>
    obtain ⟨he, hes⟩ := hes
    obtain ⟨n, rfl⟩ := Nat.exists_eq_add_of_lt hrounds
    have hexec := execute_of_some he
    have hih := @ih _ s.execute.1 (by rw [hexec]; exact hdone)
      (by rw [hexec, (forward_func s e).1]; exact hes)
      (show es.length + 1 ≤ es.length + 1 + n by omega)
    have htimes : s.executeTimes (es.length + 1 + 1) =
        ((s.execute.1.executeTimes (es.length + 1)).1,
          s.execute.2 ++ (s.execute.1.executeTimes (es.length + 1)).2) := rfl
    have hnot : ¬ s.execute.1.done = true := by
      rw [hexec, ← Bool.not_eq_true] at *
      exact hdone
    rw [List.length_cons, htimes, elements_append, Chain.feed_append, runLoop_succ,
      pull_source]
    cases h : Chain.feed fuel rest (elements s.execute.2) with
    | none => rfl
    | some r =>
      rw [Option.map_some, Option.bind_some, Option.bind_some]
      refine (if_neg hnot).trans ?_
      show (runLoop fuel (es.length + 1 + n) (.source s.execute.1 :: r.1) _).map _ = _
      rw [hih]
      cases Chain.feed fuel r.1 (elements (s.execute.1.executeTimes (es.length + 1)).2) with
      | none => rfl
      | some t => simp [List.foldl_append]

/-- A pipeline with a source runs the chain behind it on the elements of the source. -/
theorem run_source {fuel : Nat} {s : SourcePhysicalOperator U} {es : List (Event Record)}
    (hdone : s.done = false) (hes : Yields s.func s.captured es) (hfuel : es.length + 1 ≤ fuel)
    (rest : Chain U) (chs : Channels) : (run fuel (.source s :: rest) chs).map (·.2) =
      (Chain.runChain fuel rest (elements (s.runToClose (es.length + 1)))).map fun outs =>
        (outs.foldl perform chs, outs) := by
  show ((runLoop fuel fuel (.source s :: rest) chs).bind _).map _ = _
  rw [runLoop_source hdone hes hfuel]
  unfold SourcePhysicalOperator.runToClose Chain.runChain
  simp only [Option.bind_eq_bind, Option.pure_def, elements_append, Chain.feed_append]
  cases Chain.feed fuel rest (elements (s.executeTimes (es.length + 1)).2) with
  | none => rfl
  | some r =>
    rw [Option.map_some, Option.bind_some, Option.bind_some]
    show ((Chain.closeAll fuel _).bind _).map _ = _
    rw [Chain.closeAll_cons]
    show (((Chain.feed fuel r.1 (elements (s.executeTimes (es.length + 1)).1.close.2)).bind
      _).bind _).map _ = _
    cases Chain.feed fuel r.1 (elements (s.executeTimes (es.length + 1)).1.close.2) with
    | none => rfl
    | some t =>
      simp only [Option.bind_some, Option.map_some]
      cases Chain.closeAll fuel t.1 <;> simp [List.foldl_append]

/-! ## A channel source at the root -/

/-- A read of a nonempty channel: the event goes to the chain behind the channel source. -/
theorem pull_channelSource {fuel : Nat} {c : ChannelId} {e : Event Record}
    {q : List (Event Record)} {b : Bool} {rest : Chain U} {chs : Channels} (hrest : rest ≠ [])
    (hq : chs c = ⟨e :: q, b⟩) : pull fuel (.channelSource ⟨c, false⟩ :: rest) chs =
      (Chain.execute fuel none rest (.event e)).map fun r =>
        (.channelSource ⟨c, false⟩ :: r.1, r.2.foldl perform (Function.update chs c ⟨q, b⟩), r.2) := by
  have hread : Chain.read (.channelSource ⟨c, false⟩ :: rest) chs =
      some (some e, Function.update chs c ⟨q, b⟩) := by
    show (chs c).read.map _ = _
    rw [hq]
    rfl
  rw [pull_cons, hread, Option.bind_some, Chain.execute_cons]
  have hexec : (PhysicalOperator.channelSource (U := U) ⟨c, false⟩).execute fuel (!rest.isEmpty)
      (some e) dummy = some (.channelSource ⟨c, false⟩, [.next (.event e)]) := by
    have hne : (!rest.isEmpty) = true := by simpa using hrest
    rw [hne]
    rfl
  rw [hexec, Option.bind_some, Chain.deliver_of_next]
  cases Chain.execute fuel none rest (.event e) with
  | none => rfl
  | some r => simp [Chain.deliver]

/-- A read at the end of a closed channel: the channel source is done. -/
theorem pull_channelSource_end {fuel : Nat} {c : ChannelId} {rest : Chain U} {chs : Channels}
    (hq : chs c = ⟨[], true⟩) : pull fuel (.channelSource ⟨c, false⟩ :: rest) chs =
      some (.channelSource ⟨c, true⟩ :: rest, chs, []) := by
  have hread : Chain.read (.channelSource ⟨c, false⟩ :: rest) chs = some (none, chs) := by
    show (chs c).read.map _ = _
    rw [hq]
    show some (none, Function.update chs c ⟨[], true⟩) = _
    rw [← hq, Function.update_eq_self]
  rw [pull_cons, hread, Option.bind_some, Chain.execute_cons]
  rfl

/-- The loop of `run` reads one event after the other, when the channel has been filled and
closed before. -/
theorem runLoop_channelSource {fuel rounds : Nat} {c : ChannelId} {q : List (Event Record)}
    {rest : Chain U} {chs : Channels} (hrest : rest ≠ []) (hc : c ∉ Chain.outputChannels rest)
    (hq : chs c = ⟨q, true⟩) (hrounds : q.length + 1 ≤ rounds) :
    runLoop fuel rounds (.channelSource ⟨c, false⟩ :: rest) chs =
      (Chain.feed fuel rest (q.map .event)).map fun r =>
        (.channelSource ⟨c, true⟩ :: r.1,
          r.2.foldl perform (Function.update chs c ⟨[], true⟩), r.2) := by
  induction q generalizing rounds rest chs with
  | nil =>
    obtain ⟨n, rfl⟩ := Nat.exists_eq_add_of_lt hrounds
    rw [runLoop_succ, pull_channelSource_end hq, ← hq, Function.update_eq_self]
    rfl
  | cons e q ih =>
    obtain ⟨n, rfl⟩ := Nat.exists_eq_add_of_lt hrounds
    have hfeed : Chain.feed fuel rest ((e :: q).map .event) =
        (Chain.execute fuel none rest (.event e)).bind fun r =>
          (Chain.feed fuel r.1 (q.map .event)).map fun s => (s.1, r.2 ++ s.2) := by
      unfold Chain.feed
      rw [List.map_cons, List.map_cons, Chain.deliver_of_next]
    rw [runLoop_succ, pull_channelSource hrest hq, hfeed]
    cases hr : Chain.execute fuel none rest (.event e) with
    | none => rfl
    | some r =>
      obtain ⟨hshapes, hcalls⟩ := Chain.execute_shape hr
      have hunused : ∀ o ∈ r.2, o.channel? ≠ some c := fun o ho h => hc ((hcalls o ho).channel h)
      have hrest' : r.1 ≠ [] := by
        rw [← List.length_pos_iff, Chain.length_of_shapes hshapes, List.length_pos_iff]
        exact hrest
      have hc' : c ∉ Chain.outputChannels r.1 := by
        unfold Chain.outputChannels
        rw [hshapes]
        exact hc
      have hchs : r.2.foldl perform (Function.update chs c ⟨q, true⟩) c = ⟨q, true⟩ := by
        rw [foldl_perform_update hunused, Function.update_self]
      rw [Option.map_some, Option.bind_some, Option.bind_some]
      refine (if_neg Bool.false_ne_true).trans ?_
      show (runLoop fuel (q.length + 1 + n) (.channelSource ⟨c, false⟩ :: r.1) _).map _ = _
      rw [ih hrest' hc' hchs (by omega)]
      cases Chain.feed fuel r.1 (q.map .event) with
      | none => rfl
      | some t =>
        have hidem : Function.update (r.2.foldl perform (Function.update chs c ⟨q, true⟩)) c
            ⟨[], true⟩ = r.2.foldl perform (Function.update chs c ⟨[], true⟩) := by
          rw [foldl_perform_update hunused, Function.update_idem, foldl_perform_update hunused]
        simp [List.foldl_append, hidem]

/-- A pipeline with a channel source, run after the channel has been filled and closed, runs
the chain behind it on the events of the channel. -/
theorem run_channelSource {fuel : Nat} {c : ChannelId} {q : List (Event Record)}
    {rest : Chain U} {chs : Channels} (hrest : rest ≠ []) (hc : c ∉ Chain.outputChannels rest)
    (hq : chs c = ⟨q, true⟩) (hfuel : q.length + 1 ≤ fuel) :
    (run fuel (.channelSource ⟨c, false⟩ :: rest) chs).map (·.2) =
      (Chain.runChain fuel rest (q.map .event)).map fun outs =>
        (outs.foldl perform (Function.update chs c ⟨[], true⟩), outs) := by
  show ((runLoop fuel fuel (.channelSource ⟨c, false⟩ :: rest) chs).bind _).map _ = _
  rw [runLoop_channelSource hrest hc hq hfuel]
  unfold Chain.runChain
  simp only [Option.bind_eq_bind, Option.pure_def]
  cases Chain.feed fuel rest (q.map .event) with
  | none => rfl
  | some r =>
    rw [Option.map_some, Option.bind_some, Option.bind_some]
    show ((Chain.closeAll fuel _).bind _).map _ = _
    rw [Chain.closeAll_cons]
    show (((Chain.closeAll fuel r.1).map _).bind _).map _ = _
    cases Chain.closeAll fuel r.1 <;> simp [List.foldl_append]

end Pipeline

end Xtream
