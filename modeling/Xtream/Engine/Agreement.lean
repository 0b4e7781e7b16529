import Xtream.Engine.Interleaving

/-!
# Every interleaving agrees with the pipelines in order

* `Piece`: a pipeline that `build` makes: it reads the channel of the one before and writes its own;
* `Job.Pieces.sink_agrees`: in every run the sink has received an initial part of what it receives
  when the pipelines run one after the other, and all of it when every pipeline has finished;
* `Job.reads_append_queue`, `Job.Pieces.read_end`: the channels lose nothing, and they end after the
  last write;
* `DataflowGraph.IsLinear.pieces`: the pipelines of a linear graph.
-/

namespace Xtream

open KahnNetwork

/-! ## The pipelines that `build` makes -/

/-- The shapes of the pipeline number `i` of `n`. -/
structure Piece (i n : Nat) (ss : List Shape) : Prop where
  input : ∀ ch, ss.head?.bind Shape.inputChannel = some ch → i = ch + 1 ∧ 2 ≤ ss.length
  output : ∀ s ∈ ss, ∀ ch, s.outputChannel = some ch → ch = i
  last : Thread.LastWrites ss
  sink : .sink ∈ ss → i + 1 = n

theorem piece_nil (i n : Nat) : Piece i n [] :=
  ⟨fun _ h => (by cases h), fun _ h => (by cases h), fun k _ h => (by cases k <;> cases h),
    fun h => (by cases h)⟩

/-- What stands between the source and the sink. -/
def Shape.IsTransform (s : Shape) : Prop := s = .map ∨ s = .filter ∨ s = .window none

theorem isTransform_compileTransforms {U : Type} {transforms : List (LogicalImpl U)}
    (h : ∀ impl ∈ transforms, impl.isTransform = true) :
    ∀ op ∈ compileTransforms transforms, op.shape.IsTransform := by
  intro op hop
  obtain ⟨impl, himpl, hcompile⟩ := List.mem_filterMap.mp hop
  have himpl' := h impl himpl
  cases impl with
  | map op =>
    cases hcompile
    exact Or.inl rfl
  | filter op =>
    cases hcompile
    exact Or.inr (Or.inl rfl)
  | window op =>
    cases hcompile
    refine Or.inr (Or.inr ?_)
    unfold WindowLogicalOperator.compile
    cases op.spec.type <;> rfl
  | _ => cases himpl'

namespace PhysicalOperator

variable {U : Type}

theorem isWindow_of_shape {op : PhysicalOperator U} {oc : Option ChannelId}
    (h : op.shape = .window oc) : op.isWindow = true := by
  cases op with
  | countWindow op => rfl
  | timeWindow op => rfl
  | _ => cases h

theorem not_isWindow_of_shape {op : PhysicalOperator U} (h : ∀ oc, op.shape ≠ .window oc) :
    ¬ op.isWindow = true := by
  cases op with
  | countWindow op => exact absurd rfl (h op.outputChannel)
  | timeWindow op => exact absurd rfl (h op.outputChannel)
  | _ => exact Bool.false_ne_true

theorem setOutputChannel_shape {op : PhysicalOperator U} {oc : Option ChannelId}
    (h : op.shape = .window oc) (ch : ChannelId) :
    (op.setOutputChannel ch).shape = .window (some ch) := by
  cases op with
  | countWindow op => rfl
  | timeWindow op => rfl
  | _ => cases h

end PhysicalOperator

namespace ExecutionGraph

variable {U : Type}

/-- A pipeline without its last operator: no channel is written, and the sink is not there. -/
structure Open (k : Nat) (ss : List Shape) : Prop where
  nonempty : ss ≠ []
  input : ∀ ch, ss.head?.bind Shape.inputChannel = some ch → k = ch + 1
  quiet : ∀ s ∈ ss, s.outputChannel = none ∧ s ≠ .sink

theorem Open.head {k : Nat} {ss : List Shape} (h : Open k ss) (s : Shape) {ch : ChannelId}
    (hch : (ss ++ [s]).head?.bind Shape.inputChannel = some ch) :
    k = ch + 1 ∧ 2 ≤ (ss ++ [s]).length := by
  have hpos := List.length_pos_iff.mpr h.nonempty
  rw [List.head?_append_of_ne_nil _ h.nonempty] at hch
  refine ⟨h.input ch hch, ?_⟩
  rw [List.length_append, List.length_singleton]
  omega

theorem Open.append {k : Nat} {ss : List Shape} (h : Open k ss) {s : Shape}
    (hs : s.outputChannel = none ∧ s ≠ .sink) : Open k (ss ++ [s]) :=
  ⟨by simp, fun _ hch => (h.head s hch).1,
    List.forall_mem_append.mpr ⟨h.quiet, List.forall_mem_singleton.mpr hs⟩⟩

/-- The pipeline that ends with a sink. -/
theorem Open.sink {k : Nat} {ss : List Shape} (h : Open k ss) :
    Piece k (k + 1) (ss ++ [.sink]) := by
  have hquiet : ∀ s ∈ ss ++ [.sink], s.outputChannel = none :=
    List.forall_mem_append.mpr ⟨fun s hs => (h.quiet s hs).1, List.forall_mem_singleton.mpr rfl⟩
  refine ⟨fun ch hch => h.head _ hch, fun s hs ch hch => ?_, fun j ch hch => ?_, fun _ => rfl⟩
  · rw [hquiet s hs] at hch
    cases hch
  · obtain ⟨s, hs, hch⟩ := Option.bind_eq_some_iff.mp hch
    rw [hquiet s (List.mem_of_getElem? hs)] at hch
    cases hch

/-- A pipeline that ends with a window. -/
theorem Open.window {k : Nat} {ss : List Shape} (h : Open k ss) (n : Nat) :
    Piece k n (ss ++ [.window (some k)]) := by
  refine ⟨fun ch hch => h.head _ hch, fun s hs ch hch => ?_, fun j ch hch => ?_, fun hs => ?_⟩
  · rcases List.mem_append.mp hs with hs | hs
    · rw [(h.quiet s hs).1] at hch
      cases hch
    · obtain rfl := List.mem_singleton.mp hs
      exact (Option.some.inj hch).symm
  · obtain ⟨s, hs, hch⟩ := Option.bind_eq_some_iff.mp hch
    rcases Nat.lt_trichotomy j ss.length with hlt | rfl | hgt
    · rw [List.getElem?_append_left hlt] at hs
      rw [(h.quiet s (List.mem_of_getElem? hs)).1] at hch
      cases hch
    · simp
    · rw [List.getElem?_eq_none (by simpa using hgt)] at hs
      cases hs
  · rcases List.mem_append.mp hs with hs | hs
    · exact absurd rfl (h.quiet _ hs).2
    · cases List.mem_singleton.mp hs

/-- No pipeline is done before it runs. -/
theorem isDone_pipelines {ops acc : Chain U} {k : Nat} (hne : acc ≠ [])
    (hacc : Chain.isDone acc = false) {p : Chain U} (hp : p ∈ pipelines k acc ops) :
    Chain.isDone p = false := by
  have happend : ∀ {acc : Chain U}, acc ≠ [] → Chain.isDone acc = false → ∀ op,
      Chain.isDone (acc ++ [op]) = false := by
    intro acc hne hacc op
    cases acc with
    | nil => exact absurd rfl hne
    | cons _ _ => exact hacc
  induction ops generalizing acc k with
  | nil =>
    obtain rfl := List.mem_singleton.mp hp
    exact hacc
  | cons op ops ih =>
    unfold pipelines at hp
    split at hp
    · rcases List.mem_cons.mp hp with rfl | hp
      · exact happend hne hacc _
      · exact ih (List.cons_ne_nil _ _) rfl hp
    · exact ih (by simp) (happend hne hacc op) hp

/-- The pipelines that `build` makes. -/
theorem pieces_pipelines {ops : Chain U} (hops : ∀ op ∈ ops, op.shape.IsTransform)
    (sink : SinkPhysicalOperator U) {acc : Chain U} {k : Nat} (hacc : Open k (Chain.shapes acc))
    {j : Nat} {p : Chain U} (hp : (pipelines k acc (ops ++ [.sink sink]))[j]? = some p) :
    Piece (k + j) (k + (pipelines k acc (ops ++ [.sink sink])).length) (Chain.shapes p) := by
  have hshapes : ∀ (acc : Chain U) op, Chain.shapes (acc ++ [op]) =
      Chain.shapes acc ++ [op.shape] := fun acc op => by simp [Chain.shapes]
  induction ops generalizing acc k j with
  | nil =>
    have hlist : pipelines k acc ([] ++ [.sink sink]) = [acc ++ [.sink sink]] := rfl
    rw [hlist] at hp ⊢
    cases j with
    | zero =>
      cases hp
      rw [hshapes]
      exact hacc.sink
    | succ j => cases hp
  | cons op ops ih =>
    obtain ⟨hop, hrest⟩ := List.forall_mem_cons.mp hops
    rcases hop with hop | hop | hop
    · have hwindow : ¬ op.isWindow = true :=
        PhysicalOperator.not_isWindow_of_shape fun oc h => by cases hop.symm.trans h
      rw [List.cons_append, pipelines, if_neg hwindow] at hp ⊢
      refine ih hrest ?_ hp
      rw [hshapes, hop]
      exact hacc.append ⟨rfl, fun h => by cases h⟩
    · have hwindow : ¬ op.isWindow = true :=
        PhysicalOperator.not_isWindow_of_shape fun oc h => by cases hop.symm.trans h
      rw [List.cons_append, pipelines, if_neg hwindow] at hp ⊢
      refine ih hrest ?_ hp
      rw [hshapes, hop]
      exact hacc.append ⟨rfl, fun h => by cases h⟩
    · rw [List.cons_append, pipelines, if_pos (PhysicalOperator.isWindow_of_shape hop)] at hp ⊢
      cases j with
      | zero =>
        cases hp
        rw [hshapes, PhysicalOperator.setOutputChannel_shape hop]
        exact hacc.window _
      | succ j =>
        have hnext : Open (k + 1) (Chain.shapes [(.channelSource ⟨k, false⟩ :
            PhysicalOperator U)]) :=
          ⟨List.cons_ne_nil _ _, fun ch hch => congrArg Nat.succ (Option.some.inj hch),
            List.forall_mem_singleton.mpr ⟨rfl, fun h => by cases h⟩⟩
        have hshift : ∀ n, k + (n + 1) = k + 1 + n := fun n => by omega
        rw [List.length_cons, hshift j, hshift (List.length _)]
        exact ih hrest hnext hp

end ExecutionGraph

/-! ## Agreement -/

/-- The event that a call writes to a channel. -/
def Output.written (ch : ChannelId) : Output → Option (Event Record)
  | .write ch' e => if ch' = ch then some e else none
  | _ => none

/-- The events that the calls write to a channel, in order. -/
def written (ch : ChannelId) (outs : List Output) : List (Event Record) :=
  outs.filterMap (Output.written ch)

@[simp] theorem written_nil (ch : ChannelId) : written ch [] = [] := rfl

theorem written_cons (ch : ChannelId) (o : Output) (outs : List Output) :
    written ch (o :: outs) = (o.written ch).toList ++ written ch outs := by
  unfold written
  cases h : o.written ch with
  | none => rw [List.filterMap_cons_none h]; rfl
  | some e => rw [List.filterMap_cons_some h]; rfl

theorem Thread.Step.written {U : Type} {th th' : Thread U} {a : Action} (h : Step th a th')
    (ch : ChannelId) : Act.written ch a = (call? a).bind (Output.written ch) := by
  cases h with
  | call ops o => cases o <;> rfl
  | _ => rfl

/-- The channel of a step, from its call. -/
theorem Thread.Step.call_channel {U : Type} {th th' : Thread U} {a : Action} (h : Step th a th')
    {o : Output} (ho : call? a = some o) : o.channel? = a.channel? := by
  cases h with
  | call ops o' =>
    obtain rfl : o' = o := by simpa using ho
    cases o' <;> rfl
  | _ => cases ho

/-- What a thread writes to a channel, from its calls. -/
theorem Thread.writes_eq_written {U : Type} {th th' : Thread U} {as : List Action}
    (h : Steps Thread.Step th as th') (ch : ChannelId) :
    writes ch as = written ch (as.filterMap call?) := by
  have hcall : ∀ a ∈ as, Act.written ch a = (call? a).bind (Output.written ch) :=
    (Steps.inv (I := fun _ => True) (fun _ _ _ _ hstep => ⟨trivial, hstep.written ch⟩) trivial h).2
  unfold writes written
  rw [List.filterMap_filterMap]
  exact List.filterMap_congr hcall

/-- The events that the sink receives in the steps. -/
def received (as : List Action) : List (Event Record) := sinks (as.filterMap call?)

theorem received_append (as as' : List Action) :
    received (as ++ as') = received as ++ received as' := by
  simp [received]

theorem received_eq_nil {a : Action} (h : ∀ e, a ≠ .out (some (.sink e))) : received [a] = [] := by
  cases a with
  | out o =>
    cases o with
    | none => rfl
    | some o =>
      cases o with
      | sink e => exact absurd rfl (h e)
      | _ => rfl
  | _ => rfl

namespace Job

variable {U : Type}

/-- The pipelines are as `build` makes them. -/
structure Pieces (pipelines : List (Chain U)) : Prop where
  piece : ∀ i p, pipelines[i]? = some p → Piece i pipelines.length (Chain.shapes p)
  isDone : ∀ p ∈ pipelines, Chain.isDone p = false

/-- What each thread of a job can do. -/
theorem Pieces.fits {pipelines : List (Chain U)} (h : Pieces pipelines) (i : Nat) :
    ∃ ss, Piece i pipelines.length ss ∧ Thread.Fits ss ((start pipelines).threads i) := by
  show ∃ ss, Piece i _ ss ∧ Thread.Fits ss ((pipelines[i]?).elim _ Thread.start)
  cases hp : pipelines[i]? with
  | none =>
    exact ⟨[], piece_nil _ _, rfl, [], none, rfl, List.forall_mem_nil _, fun _ h => by cases h⟩
  | some p => exact ⟨_, h.piece i p hp, Thread.fits_start p⟩

section

variable {pipelines : List (Chain U)} {s : Job U} {t : List (Nat × Action)}

/-- What the steps of a run can be. -/
theorem Pieces.allows (h : Pieces pipelines) (ht : Steps Step (start pipelines) t s) {i : Nat}
    {a : Action} (ha : (i, a) ∈ t) :
    ∃ ss, Piece i pipelines.length ss ∧ Thread.Allows ss a := by
  obtain ⟨ss, hpiece, hfits⟩ := h.fits i
  have hlocal := (steps_spec rfl ht).2.2 i
  exact ⟨ss, hpiece, (hfits.steps hpiece.last hlocal).2 a (mem_localActs.mpr ha)⟩

/-- Each channel has one writer and one reader: a pipeline and the next one. -/
theorem Pieces.wired (h : Pieces pipelines) (ht : Steps Step (start pipelines) t s) :
    Wired (fun ch : ChannelId => (ch : Nat)) (fun ch => ch + 1) t := by
  refine ⟨fun i ch e hm => ?_, fun i ch hm => ?_, fun i ch v hm => ?_⟩
  · obtain ⟨ss, hpiece, sh, hsh, hch⟩ := h.allows ht hm
    exact (hpiece.output sh hsh ch hch).symm
  · obtain ⟨ss, hpiece, sh, hsh, hch⟩ := h.allows ht hm
    exact (hpiece.output sh hsh ch hch).symm
  · obtain ⟨ss, hpiece, hch⟩ := h.allows ht hm
    exact (hpiece.input ch hch).1

/-- Nothing is written after a close. -/
theorem Pieces.sealed (h : Pieces pipelines) (ht : Steps Step (start pipelines) t s) (i : Nat) :
    Sealed (localActs i t) := by
  obtain ⟨ss, hpiece, hfits⟩ := h.fits i
  exact hfits.sealed hpiece.last ((steps_spec rfl ht).2.2 i)

/-- The sink is in the last pipeline. -/
theorem Pieces.sinks_eq (h : Pieces pipelines) (ht : Steps Step (start pipelines) t s) :
    sinks (calls t) = sinks ((localActs (pipelines.length - 1) t).filterMap call?) := by
  have hsink : ∀ i e, (i, .out (some (.sink e))) ∈ t → i = pipelines.length - 1 := by
    intro i e hm
    obtain ⟨ss, hpiece, hmem⟩ := h.allows ht hm
    have := hpiece.sink hmem
    omega
  clear ht
  show received (acts t) = received (localActs _ t)
  induction t with
  | nil => rfl
  | cons x t ih =>
    obtain ⟨i, a⟩ := x
    obtain ⟨hx, hrest⟩ : (∀ e, a = .out (some (.sink e)) → i = pipelines.length - 1) ∧
        ∀ i e, (i, .out (some (.sink e))) ∈ t → i = pipelines.length - 1 :=
      ⟨fun e ha => hsink i e (by rw [ha]; exact List.mem_cons_self),
        fun i e hm => hsink i e (List.mem_cons_of_mem _ hm)⟩
    rw [← List.singleton_append, acts_append, localActs_append, received_append, received_append,
      ih hrest]
    refine congrArg (· ++ _) ?_
    by_cases hi : i = pipelines.length - 1
    · rw [hi, localActs_self]
      rfl
    · rw [localActs_other hi]
      exact received_eq_nil fun e ha => hi (hx e ha)

/-- The channels lose nothing: what has been written has been read, in order, or waits. -/
theorem reads_append_queue (ht : Steps Step (start pipelines) t s) (ch : ChannelId) :
    reads ch (acts t) ++ (s.channels ch).queue = writes ch (acts t) :=
  ((steps_spec rfl ht).2.1 ch).queue

/-- A channel ends after the last write: when its end is read, all that is ever written to it
has been read. -/
theorem Pieces.read_end (h : Pieces pipelines) (ht : Steps Step (start pipelines) t s)
    {before after : List (Nat × Action)} {i : Nat} {ch : ChannelId}
    (hsplit : t = before ++ (i, .read ch none) :: after) :
    .close ch ∈ acts before ∧ reads ch (acts before) = writes ch (acts before) ∧
      writes ch (acts after) = [] := by
  obtain ⟨hclose, hlen⟩ := (steps_spec rfl ht).1 before i ch none after hsplit
  obtain ⟨p, hbefore, -⟩ := Steps.append_iff.mp (hsplit ▸ ht)
  have hqueue := reads_append_queue hbefore ch
  have hread : reads ch (acts before) = writes ch (acts before) :=
    List.IsPrefix.eq_of_length ⟨_, hqueue⟩ hlen
  have hpart : ∀ j, localActs j before <+: localActs j t := fun j => by
    rw [hsplit, localActs_append]
    exact List.prefix_append _ _
  have hwrites := writes_closed (h.wired ht) (h.sealed ht) hpart hclose
  have hsum : acts t = acts before ++ ([.read ch none] ++ acts after) := by
    rw [hsplit, acts_append]
    rfl
  rw [hsum, writes_append, List.append_right_eq_self, writes_append, writes_read,
    List.nil_append] at hwrites
  exact ⟨hclose, hread, hwrites⟩

/-- Every interleaving agrees with the pipelines in order, thread by thread. -/
theorem Pieces.local_agrees (h : Pieces pipelines) {fuel : Nat} {outs : List Output}
    (hrun : ExecutionGraph.runInOrder fuel pipelines (fun _ => {}) = some outs)
    (ht : Steps Step (start pipelines) t s) : ∃ u, calls u = outs ∧
      (∀ i, localActs i t <+: localActs i u) ∧ (s.Finished → ∀ i, localActs i t = localActs i u) ∧
      sinks outs = received (localActs (pipelines.length - 1) u) := by
  obtain ⟨s', ⟨u, rfl, hu⟩, hfin⟩ := exists_run hrun
  obtain ⟨hcons_u, -, hlocal_u⟩ := steps_spec rfl hu
  obtain ⟨hcons_t, -, hlocal_t⟩ := steps_spec rfl ht
  refine ⟨u, rfl, fun i => ?_, fun hs i => ?_, h.sinks_eq hu⟩
  · exact local_initial Thread.deterministic hcons_u (h.wired hu) (h.sealed hu) hlocal_u
      (fun i => (hfin i).no_step) hcons_t hlocal_t i
  · exact local_eq Thread.deterministic hcons_u (h.wired hu) (h.sealed hu) hlocal_u
      (fun i => (hfin i).no_step) hcons_t hlocal_t (fun i => (hs i).no_step) i

theorem received_initial {as as' : List Action} (h : as <+: as') :
    received as <+: received as' := by
  obtain ⟨bs, rfl⟩ := h
  exact ⟨received bs, (received_append as bs).symm⟩

/-- What the sink has received is an initial part of what it receives when the pipelines run in
order, and all of it when every pipeline has finished. -/
theorem Pieces.sink_agrees (h : Pieces pipelines) {fuel : Nat} {outs : List Output}
    (hrun : ExecutionGraph.runInOrder fuel pipelines (fun _ => {}) = some outs)
    (ht : Steps Step (start pipelines) t s) : sinks (calls t) <+: sinks outs ∧
      (s.Finished → sinks (calls t) = sinks outs) := by
  obtain ⟨u, -, hinitial, heq, hsinks⟩ := h.local_agrees hrun ht
  have ht' : sinks (calls t) = received (localActs (pipelines.length - 1) t) := h.sinks_eq ht
  rw [ht', hsinks]
  exact ⟨received_initial (hinitial _), fun hs => by rw [heq hs]⟩

end

end Job

/-- The pipelines of a linear graph. -/
theorem DataflowGraph.IsLinear.pieces {U : Type} {g : DataflowGraph U}
    {source : SourceLogicalOperator U} {transforms : List (LogicalImpl U)}
    {sink : SinkLogicalOperator U} (hg : g.IsLinear source transforms sink) :
    Job.Pieces (ExecutionGraph.pipelines 0 [source.compile]
      (compileTransforms transforms ++ [sink.compile])) := by
  have hopen : ExecutionGraph.Open 0 (Chain.shapes [source.compile]) :=
    ⟨List.cons_ne_nil _ _, fun ch h => (by cases h),
      List.forall_mem_singleton.mpr ⟨rfl, fun h => by cases h⟩⟩
  refine ⟨fun i p hp => ?_, fun p hp => ?_⟩
  · have hpiece := ExecutionGraph.pieces_pipelines
      (isTransform_compileTransforms hg.transforms) _ hopen hp
    rw [Nat.zero_add, Nat.zero_add] at hpiece
    exact hpiece
  · exact ExecutionGraph.isDone_pipelines (List.cons_ne_nil _ _) rfl hp

end Xtream
