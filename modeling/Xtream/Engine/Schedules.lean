import Xtream.Engine.Agreement

/-!
# A run that finishes can be put in order

When every pipeline has finished, in whatever order their threads took their steps, the pipelines
run one after the other finish too.

* `Thread.run_of_steps`: what a thread has done, as one call of `run` on a filled channel;
* `Job.Pieces.exists_inOrder`: the pipelines one after the other;
* `interleaving`: every interleaving of the pipelines of a linear graph.
-/

namespace Xtream

open KahnNetwork

/-! ## What the calls do to the channels -/

theorem foldl_perform_content (outs : List Output) (chs : Channels) (ch : ChannelId) :
    outs.foldl perform chs ch = ⟨(chs ch).queue ++ written ch outs,
      (chs ch).closed || decide (.closeChannel ch ∈ outs)⟩ := by
  induction outs generalizing chs with
  | nil => simp
  | cons o outs ih =>
    rw [List.foldl_cons, ih, written_cons]
    cases o with
    | write ch' e =>
      by_cases heq : ch' = ch
      · subst heq
        simp [perform, InputChannel.write, Output.written]
      · simp [perform, Output.written, heq, Function.update_of_ne (Ne.symm heq)]
    | closeChannel ch' =>
      by_cases heq : ch' = ch
      · subst heq
        simp [perform, InputChannel.close, Output.written]
      · simp [perform, Output.written, Ne.symm heq]
    | _ => simp [perform, Output.written]

/-- The calls do to a channel what they do to another one with the same content. -/
theorem foldl_perform_congr {chs chs' : Channels} {ch : ChannelId} (h : chs ch = chs' ch)
    (outs : List Output) : outs.foldl perform chs ch = outs.foldl perform chs' ch := by
  rw [foldl_perform_content, foldl_perform_content, h]

namespace Chain

variable {U : Type}

theorem inputChannel_of_shapes {ops ops' : Chain U} (h : shapes ops' = shapes ops) :
    inputChannel ops' = inputChannel ops := by
  rw [inputChannel_shapes, inputChannel_shapes, h]

/-- `read` of a root that is no channel source. -/
theorem read_of_none {ops : Chain U} (h : inputChannel ops = none) (chs : Channels) :
    read ops chs = some (none, chs) := by
  unfold read
  rw [show ops.head?.bind PhysicalOperator.inputChannel = none from h]

/-- `read` of a channel source. -/
theorem read_of_some {ops : Chain U} {ch : ChannelId} (h : inputChannel ops = some ch)
    (chs : Channels) : read ops chs =
      (chs ch).read.map fun r => (r.1, Function.update chs ch r.2) := by
  unfold read
  rw [show ops.head?.bind PhysicalOperator.inputChannel = some ch from h]

/-- A channel source is done when it has read the end. -/
theorem execute_isDone {ops : Chain U} {ch : ChannelId} (h : inputChannel ops = some ch)
    (hlen : 2 ≤ ops.length) {fuel : Nat} {v : Option (Event Record)} {x : StreamElement}
    {r : Chain U × List Output} (hr : execute fuel v ops x = some r) :
    isDone r.1 = (v.isNone || isDone ops) := by
  cases ops with
  | nil => cases h
  | cons op rest =>
    cases op with
    | channelSource op =>
      rw [execute_cons, Option.bind_eq_some_iff] at hr
      obtain ⟨r', hr', hr⟩ := hr
      obtain ⟨s, -, rfl⟩ := Option.map_eq_some_iff.mp hr
      cases hr'
      have hnext : (!rest.isEmpty) = true := by
        cases rest with
        | nil => exact absurd hlen (by simp)
        | cons _ _ => rfl
      rw [hnext]
      cases v <;> rfl
    | _ => cases h

end Chain

namespace Pipeline

variable {U : Type}

/-- Other channels than its own a root leaves alone. -/
theorem pull_channels {fuel : Nat} {ops : Chain U} {chs : Channels}
    {r : Chain U × Channels × List Output} (h : pull fuel ops chs = some r) {ch : ChannelId}
    (hch : Chain.inputChannel ops ≠ some ch) : Chain.shapes r.1 = Chain.shapes ops ∧
      r.2.1 ch = r.2.2.foldl perform chs ch := by
  cases ops with
  | nil => cases h
  | cons op rest =>
    rw [pull_cons, Option.bind_eq_some_iff] at h
    obtain ⟨⟨v, chs'⟩, hread, h⟩ := h
    obtain ⟨s, hs, rfl⟩ := Option.map_eq_some_iff.mp h
    refine ⟨(Chain.execute_shape hs).1, foldl_perform_congr ?_ s.2⟩
    cases hinput : Chain.inputChannel (op :: rest) with
    | none =>
      rw [Chain.read_of_none hinput] at hread
      cases hread
      rfl
    | some ch' =>
      rw [Chain.read_of_some hinput] at hread
      obtain ⟨c, -, heq⟩ := Option.map_eq_some_iff.mp hread
      cases heq
      refine Function.update_of_ne ?_ _ _
      rintro rfl
      exact hch hinput

theorem runLoop_channels {fuel rounds : Nat} {ops : Chain U} {chs : Channels}
    {r : Chain U × Channels × List Output} (h : runLoop fuel rounds ops chs = some r)
    {ch : ChannelId} (hch : Chain.inputChannel ops ≠ some ch) :
    r.2.1 ch = r.2.2.foldl perform chs ch := by
  induction rounds generalizing ops chs r with
  | zero => cases h
  | succ rounds ih =>
    rw [runLoop_succ, Option.bind_eq_some_iff] at h
    obtain ⟨s, hs, h⟩ := h
    obtain ⟨hshapes, hchs⟩ := pull_channels hs hch
    by_cases hdone : Chain.isDone s.1 = true
    · rw [if_pos hdone] at h
      cases h
      exact hchs
    · rw [if_neg hdone] at h
      obtain ⟨r', hr', rfl⟩ := Option.map_eq_some_iff.mp h
      rw [List.foldl_append]
      rw [← Chain.inputChannel_of_shapes hshapes] at hch
      exact (ih hr' hch).trans (foldl_perform_congr hchs _)

/-- The channels after `run`: what the calls have made of them. -/
theorem run_channels {fuel : Nat} {ops : Chain U} {chs : Channels}
    {r : Chain U × Channels × List Output} (h : run fuel ops chs = some r)
    {ch : ChannelId} (hch : Chain.inputChannel ops ≠ some ch) :
    r.2.1 ch = r.2.2.foldl perform chs ch := by
  obtain ⟨s, hs, h⟩ := Option.bind_eq_some_iff.mp h
  obtain ⟨t, ht, h⟩ := Option.bind_eq_some_iff.mp h
  cases h
  rw [List.foldl_append]
  exact foldl_perform_congr (runLoop_channels hs hch) t.2

end Pipeline

/-! ## A thread that finishes -/

theorem filterMap_call?_action (outs : List Output) :
    (outs.map Output.action).filterMap call? = outs := by
  induction outs with
  | nil => rfl
  | cons o outs ih => simp [ih]

theorem reads_action (ch : ChannelId) (outs : List Output) :
    reads ch (outs.map Output.action) = [] := by
  refine List.filterMap_eq_nil_iff.mpr fun a ha => ?_
  obtain ⟨o, -, rfl⟩ := List.mem_map.mp ha
  cases o <;> rfl

namespace Thread

variable {U : Type} {th : Thread U}

/-- A thread that finishes makes its pending calls first. -/
theorem steps_pending (hth : th.Finished) {ops : Chain U} {outs : List Output} {phase : Phase}
    {as : List Action} (h : Steps Step ⟨ops, outs, phase⟩ as th) :
    ∃ as', as = outs.map Output.action ++ as' ∧ Steps Step ⟨ops, [], phase⟩ as' th := by
  induction outs generalizing as with
  | nil => exact ⟨as, rfl, h⟩
  | cons o outs ih =>
    cases h with
    | nil => cases hth.1
    | cons hstep hrest =>
      cases hstep with
      | call =>
        obtain ⟨as', rfl, h'⟩ := ih hrest
        exact ⟨as', rfl, h'⟩

/-- The closes of a thread that finishes. -/
theorem closeFrom_of_steps (hth : th.Finished) {n k : Nat} {ops : Chain U} {as : List Action}
    (h : Steps Step ⟨ops, [], .closing k⟩ as th) (hk : k + n = ops.length) :
    ∃ m r, (∀ fuel, m ≤ fuel → Chain.closeFrom fuel n k ops = some r) ∧
      r.2 = as.filterMap call? ∧ ∀ ch, reads ch as = [] := by
  induction n generalizing k ops as with
  | zero =>
    have hdone : (⟨ops, [], .closing k⟩ : Thread U).Finished := ⟨rfl, congrArg Phase.closing hk⟩
    cases h with
    | nil => exact ⟨0, (ops, []), fun _ _ => rfl, rfl, fun _ => rfl⟩
    | cons hstep _ => exact absurd hstep (hdone.no_step _ _)
  | succ n ih =>
    cases h with
    | nil => exact absurd (Phase.closing.inj hth.2) (by simp only; omega)
    | cons hstep hrest =>
      cases hstep with
      | @close _ _ fuel₀ r₀ hlt hclose =>
        obtain ⟨as', rfl, hmore⟩ := steps_pending hth hrest
        have hlen := Chain.closeAt_length hclose
        obtain ⟨m, r, hr, hcalls, hreads⟩ := ih hmore (by omega)
        refine ⟨max fuel₀ m, (r.1, r₀.2 ++ r.2), fun fuel hfuel => ?_, ?_, fun ch => ?_⟩
        · show (Chain.closeAt fuel k ops).bind _ = _
          rw [Chain.closeAt_mono (by omega) hclose]
          show (Chain.closeFrom fuel n (k + 1) r₀.1).bind _ = _
          rw [hr fuel (by omega)]
          rfl
        · rw [List.filterMap_cons_none rfl, List.filterMap_append, filterMap_call?_action, hcalls]
        · rw [← List.singleton_append, reads_append, reads_append, reads_action, hreads]
          rfl

/-- One pull of a thread that finishes: `as` is what it does afterwards. -/
theorem pull_of_step (hth : th.Finished) {ops : Chain U} {a : Action} {th₁ : Thread U}
    (hstep : Step ⟨ops, [], .pulling⟩ a th₁) {as : List Action} (hrest : Steps Step th₁ as th)
    {chs : Channels} (hin : ∀ ch, Chain.inputChannel ops = some ch →
      chs ch = ⟨reads ch (a :: as), true⟩ ∧ ch ∉ Chain.outputChannels ops ∧ 2 ≤ ops.length) :
    ∃ m r, (∀ fuel, m ≤ fuel → Pipeline.pull fuel ops chs = some r) ∧
      (∀ ch, Chain.inputChannel r.1 = some ch →
        r.2.1 ch = ⟨reads ch as, true⟩ ∧ ch ∉ Chain.outputChannels r.1 ∧ 2 ≤ r.1.length) ∧
      ∃ as', (a :: as).filterMap call? = r.2.2 ++ as'.filterMap call? ∧
        (∀ ch, reads ch as = reads ch as') ∧ as'.length ≤ as.length ∧
        Steps Step ⟨r.1, [], phaseAfter r.1⟩ as' th := by
  cases ops with
  | nil =>
    cases hstep with
    | pull hne => exact absurd rfl hne
    | read hinput => cases hinput
  | cons op rest =>
    cases hstep with
    | @pull _ fuel₀ r₀ hne hinput h =>
      obtain ⟨as', rfl, hmore⟩ := steps_pending hth hrest
      refine ⟨fuel₀, (r₀.1, r₀.2.foldl perform chs, r₀.2), fun fuel hfuel => ?_, fun ch hch => ?_,
        as', ?_, fun ch => ?_, by simp, hmore⟩
      · rw [Pipeline.pull_cons, Chain.read_of_none hinput, Option.bind_some,
          Chain.execute_mono hfuel h]
        rfl
      · rw [Chain.inputChannel_of_shapes (Chain.execute_shape h).1, hinput] at hch
        cases hch
      · rw [List.filterMap_cons_none rfl, List.filterMap_append, filterMap_call?_action]
      · rw [reads_append, reads_action, List.nil_append]
    | @read _ ch v fuel₀ r₀ hinput h =>
      obtain ⟨as', rfl, hmore⟩ := steps_pending hth hrest
      obtain ⟨hch, hout, hlen⟩ := hin ch hinput
      obtain ⟨hshapes, hcalls⟩ := Chain.execute_shape h
      have hskip : ∀ ch, reads ch (r₀.2.map Output.action ++ as') = reads ch as' := fun ch => by
        rw [reads_append, reads_action, List.nil_append]
      -- the channel has the value that the thread has read
      have hread : (chs ch).read = some (v, ⟨reads ch as', true⟩) := by
        rw [hch, ← List.singleton_append, reads_append, reads_read, hskip]
        cases v with
        | some e => rfl
        | none =>
          have hdone : Chain.isDone r₀.1 = true := Chain.execute_isDone hinput hlen h
          rw [phaseAfter, if_pos hdone] at hmore
          obtain ⟨_, _, -, -, hreads⟩ := closeFrom_of_steps hth hmore (Nat.zero_add _)
          rw [hreads]
          rfl
      refine ⟨fuel₀, (r₀.1, r₀.2.foldl perform (Function.update chs ch ⟨reads ch as', true⟩), r₀.2),
        fun fuel hfuel => ?_, fun ch' hch' => ?_, as', ?_, hskip, by simp, hmore⟩
      · rw [Pipeline.pull_cons, Chain.read_of_some hinput, hread, Option.map_some,
          Option.bind_some, Chain.execute_mono hfuel h]
        rfl
      · rw [Chain.inputChannel_of_shapes hshapes, hinput] at hch'
        cases hch'
        have hout' : ch ∉ Chain.outputChannels r₀.1 := by
          unfold Chain.outputChannels
          rw [hshapes]
          exact hout
        refine ⟨?_, hout', (Chain.length_of_shapes hshapes).symm ▸ hlen⟩
        show r₀.2.foldl perform (Function.update chs ch ⟨reads ch as', true⟩) ch = _
        rw [hskip, foldl_perform_update fun o ho hc => hout ((hcalls o ho).channel hc),
          Function.update_self]
      · rw [List.filterMap_cons_none rfl, List.filterMap_append, filterMap_call?_action]

/-- The loop of a thread that finishes. -/
theorem runLoop_of_steps (hth : th.Finished) {ops : Chain U} {as : List Action}
    (h : Steps Step ⟨ops, [], .pulling⟩ as th) {chs : Channels}
    (hin : ∀ ch, Chain.inputChannel ops = some ch →
      chs ch = ⟨reads ch as, true⟩ ∧ ch ∉ Chain.outputChannels ops ∧ 2 ≤ ops.length) :
    ∃ m r, (∀ fuel rounds, m ≤ fuel → m ≤ rounds →
        Pipeline.runLoop fuel rounds ops chs = some r) ∧
      ∃ as', as.filterMap call? = r.2.2 ++ as'.filterMap call? ∧
        Steps Step ⟨r.1, [], .closing 0⟩ as' th := by
  induction hn : as.length using Nat.strongRecOn generalizing ops as chs with
  | _ n ih =>
    cases h with
    | nil => cases hth.2
    | @cons _ _ _ a as hstep hrest =>
      obtain ⟨m, r, hpull, hin', as', hcalls, hreads, hlen, hmore⟩ :=
        pull_of_step hth hstep hrest hin
      by_cases hdone : Chain.isDone r.1 = true
      · rw [phaseAfter, if_pos hdone] at hmore
        refine ⟨m + 1, r, fun fuel rounds hfuel hrounds => ?_, as', hcalls, hmore⟩
        obtain ⟨k, rfl⟩ := Nat.exists_eq_add_of_lt hrounds
        rw [Pipeline.runLoop_succ, hpull fuel (by omega), Option.bind_some, if_pos hdone]
      · rw [phaseAfter, if_neg hdone] at hmore
        rw [List.length_cons] at hn
        obtain ⟨m', r', hloop, as'', hcalls', hclose⟩ := ih as'.length (by omega) hmore
          (fun ch hch => hreads ch ▸ hin' ch hch) rfl
        refine ⟨max m m' + 1, (r'.1, r'.2.1, r.2.2 ++ r'.2.2), fun fuel rounds hfuel hrounds => ?_,
          as'', by rw [hcalls, hcalls', List.append_assoc], hclose⟩
        obtain ⟨k, rfl⟩ := Nat.exists_eq_add_of_lt hrounds
        rw [Pipeline.runLoop_succ, hpull fuel (by omega), Option.bind_some, if_neg hdone,
          hloop fuel _ (by omega) (by omega)]
        rfl

/-- What a thread has done when it has finished, as one call of `run`. -/
theorem run_of_steps (hth : th.Finished) {ops : Chain U} {as : List Action}
    (h : Steps Step (start ops) as th) {chs : Channels}
    (hin : ∀ ch, Chain.inputChannel ops = some ch →
      chs ch = ⟨reads ch as, true⟩ ∧ ch ∉ Chain.outputChannels ops ∧ 2 ≤ ops.length) :
    ∃ m r, (∀ fuel, m ≤ fuel → Pipeline.run fuel ops chs = some r) ∧
      r.2.2 = as.filterMap call? := by
  obtain ⟨m, r, hloop, as', hcalls, hclose⟩ := runLoop_of_steps hth h hin
  obtain ⟨m', r', hclose', hcalls', -⟩ := closeFrom_of_steps hth hclose (Nat.zero_add _)
  refine ⟨max m m', (r'.1, r'.2.foldl perform r.2.1, r.2.2 ++ r'.2), fun fuel hfuel => ?_, ?_⟩
  · show (Pipeline.runLoop fuel fuel ops chs).bind _ = _
    rw [hloop fuel fuel (by omega) (by omega)]
    show (Chain.closeFrom fuel r.1.length 0 r.1).bind _ = _
    rw [hclose' fuel (by omega)]
    rfl
  · rw [hcalls, ← hcalls']

/-- A thread that finishes has read the end of its channel. -/
theorem read_end_of_steps (hth : th.Finished) {ops : Chain U} {as : List Action}
    (h : Steps Step ⟨ops, [], .pulling⟩ as th) {ch : ChannelId}
    (hinput : Chain.inputChannel ops = some ch) (hlen : 2 ≤ ops.length)
    (hdone : Chain.isDone ops = false) : .read ch none ∈ as := by
  induction hn : as.length using Nat.strongRecOn generalizing ops as with
  | _ n ih =>
    cases h with
    | nil => cases hth.2
    | @cons _ _ _ a as hstep hrest =>
      cases hstep with
      | pull hne hinput' =>
        rw [hinput] at hinput'
        cases hinput'
      | @read _ ch' v fuel r hinput' hexec =>
        rw [hinput] at hinput'
        cases hinput'
        cases v with
        | none => exact List.mem_cons_self
        | some e =>
          -- the thread goes on
          have hdone' : Chain.isDone r.1 = false :=
            (Chain.execute_isDone hinput hlen hexec).trans hdone
          have hshapes := (Chain.execute_shape hexec).1
          obtain ⟨as', rfl, hmore⟩ := steps_pending hth hrest
          rw [phaseAfter, if_neg (by rw [hdone']; exact Bool.false_ne_true)] at hmore
          have hmem := ih as'.length (by simp at hn; omega) hmore
            ((Chain.inputChannel_of_shapes hshapes).trans hinput)
            ((Chain.length_of_shapes hshapes).symm ▸ hlen) hdone' rfl
          exact List.mem_cons_of_mem _ (List.mem_append_right _ hmem)

end Thread

namespace Job

variable {U : Type} {pipelines : List (Chain U)} {s : Job U} {t : List (Nat × Action)}

/-- What is read from the channel of a pipeline that has finished is all that is written. -/
theorem Pieces.reads_all (h : Pieces pipelines) (ht : Steps Step (start pipelines) t s)
    (hs : s.Finished) {i : Nat} {p : Chain U} (hp : pipelines[i]? = some p) {ch : ChannelId}
    (hinput : Chain.inputChannel p = some ch) : i = ch + 1 ∧ 2 ≤ p.length ∧
      reads ch (localActs i t) = writes ch (acts t) ∧ .close ch ∈ localActs ch t := by
  have hpiece := h.piece i p hp
  rw [Chain.inputChannel_shapes] at hinput
  obtain ⟨hi, hlen⟩ := hpiece.input ch hinput
  rw [← Chain.inputChannel_shapes] at hinput
  have hlen' : 2 ≤ p.length := by simpa [Chain.shapes] using hlen
  have hlocal : Steps Thread.Step (Thread.start p) (localActs i t) (s.threads i) := by
    have hstart : (start pipelines).threads i = Thread.start p := by
      show (pipelines[i]?).elim _ Thread.start = _
      rw [hp]
      rfl
    exact hstart ▸ (steps_spec rfl ht).2.2 i
  have hend := Thread.read_end_of_steps (hs i) hlocal hinput hlen'
    (h.isDone p (List.mem_of_getElem? hp))
  obtain ⟨before, after, hsplit⟩ := List.append_of_mem (mem_localActs.mp hend)
  obtain ⟨hclose, hread, hafter⟩ := h.read_end ht hsplit
  refine ⟨hi, hlen', ?_, ?_⟩
  · have hreads : reads ch (localActs i t) = reads ch (acts t) := by
      rw [hi]
      exact (h.wired ht).reads_local ch
    have hsum : acts t = acts before ++ ([.read ch none] ++ acts after) := by
      rw [hsplit, acts_append]
      rfl
    -- nothing can be read after the end
    have hqueue := reads_append_queue ht ch
    rw [hsum] at hqueue hreads ⊢
    simp only [writes_append, reads_append, writes_read, reads_read, hafter, hread,
      Option.toList_none, List.nil_append, List.append_nil, List.append_assoc,
      List.append_right_eq_self, List.append_eq_nil_iff] at hqueue hreads ⊢
    rw [hreads, hqueue.1, List.append_nil]
  · have hmem : .close ch ∈ acts t := by
      rw [hsplit, acts_append]
      exact List.mem_append_left _ hclose
    exact (h.wired ht).close_local hmem

/-- The calls of a thread use its own channel only. -/
theorem Pieces.calls_channel (h : Pieces pipelines) (ht : Steps Step (start pipelines) t s)
    {i : Nat} {o : Output} (ho : o ∈ (localActs i t).filterMap call?) {ch : ChannelId}
    (hch : o.channel? = some ch) : ch = i := by
  obtain ⟨a, ha, hcall⟩ := List.mem_filterMap.mp ho
  have hchannel : o.channel? = a.channel? :=
    (Steps.inv (I := fun _ => True) (Q := fun a => ∀ o, call? a = some o → o.channel? = a.channel?)
      (fun _ _ _ _ hstep => ⟨trivial, fun _ => hstep.call_channel⟩) trivial
      ((steps_spec rfl ht).2.2 i)).2 a ha o hcall
  rw [hch] at hchannel
  have hmem := mem_localActs.mp ha
  have hwired := h.wired ht
  cases a with
  | read c v => cases hcall
  | write c e =>
    cases hchannel
    exact (hwired.write i ch e hmem).symm
  | close c =>
    cases hchannel
    exact (hwired.close i ch hmem).symm
  | out o' => cases hchannel

/-- The pipelines from one on, when the channel that it reads has been filled and closed. -/
theorem Pieces.exists_inOrder_from (h : Pieces pipelines)
    (ht : Steps Step (start pipelines) t s) (hs : s.Finished) {i k : Nat}
    (hk : i + k = pipelines.length) {chs : Channels} (hfresh : ∀ j, i ≤ j → chs j = {})
    (hin : ∀ p ch, pipelines[i]? = some p → Chain.inputChannel p = some ch →
      chs ch = ⟨writes ch (acts t), true⟩) :
    ∃ m outs, ∀ fuel, m ≤ fuel →
      ExecutionGraph.runInOrder fuel (pipelines.drop i) chs = some outs := by
  induction k generalizing i chs with
  | zero =>
    have hk' : pipelines.length = i := hk.symm
    rw [List.drop_eq_nil_of_le (Nat.le_of_eq hk')]
    exact ⟨0, [], fun _ _ => rfl⟩
  | succ k ih =>
    have hi : i < pipelines.length := by omega
    have hp : pipelines[i]? = some pipelines[i] := List.getElem?_eq_getElem hi
    have hpiece := h.piece i _ hp
    have hlocal : Steps Thread.Step (Thread.start pipelines[i]) (localActs i t) (s.threads i) := by
      have hstart : (start pipelines).threads i = Thread.start pipelines[i] := by
        show (pipelines[i]?).elim _ Thread.start = _
        rw [hp]
        rfl
      exact hstart ▸ (steps_spec rfl ht).2.2 i
    have hinput : ∀ ch, Chain.inputChannel pipelines[i] = some ch → i = ch + 1 :=
      fun ch hch => (h.reads_all ht hs hp hch).1
    obtain ⟨m, r, hrun, hcalls⟩ := @Thread.run_of_steps U _ (hs i) _ _ hlocal chs fun ch hch => by
      obtain ⟨hi', hlen, hreads, -⟩ := h.reads_all ht hs hp hch
      refine ⟨by rw [hin _ ch hp hch, hreads], fun hout => ?_, hlen⟩
      obtain ⟨sh, hsh, hsh'⟩ := List.mem_filterMap.mp hout
      exact Nat.ne_of_lt (Nat.lt_succ_self ch) ((hpiece.output sh hsh ch hsh').trans hi')
    have hafter : ∀ j, i ≤ j → r.2.1 j =
        ⟨written j r.2.2, decide (.closeChannel j ∈ r.2.2)⟩ := by
      intro j hj
      rw [Pipeline.run_channels (hrun m (Nat.le_refl m)) fun hch => by
        have := hinput j hch
        omega, foldl_perform_content, hfresh j hj]
      rfl
    obtain ⟨m', outs, hrest⟩ := @ih (i + 1) (by omega) r.2.1 (fun j hj => by
        have hnot : ∀ o ∈ r.2.2, o.channel? ≠ some j := by
          intro o ho hch
          rw [hcalls] at ho
          have hown : j = i := h.calls_channel ht ho hch
          omega
        rw [Pipeline.run_channels (hrun m (Nat.le_refl m)) fun hch => by
          have := hinput j hch
          omega, foldl_perform_apply hnot, hfresh j (by omega)])
      (fun p ch hp' hch => by
        obtain ⟨hi', -, -, hclose⟩ := h.reads_all ht hs hp' hch
        obtain rfl : i = ch := Nat.succ.inj hi'
        have hmem : .closeChannel i ∈ r.2.2 := by
          rw [hcalls]
          exact List.mem_filterMap.mpr ⟨_, hclose, rfl⟩
        rw [hafter i (Nat.le_refl i), decide_eq_true hmem, hcalls,
          ← Thread.writes_eq_written hlocal i]
        exact congrArg (InputChannel.mk · true) ((h.wired ht).writes_local i))
    refine ⟨max m m', r.2.2 ++ outs, fun fuel hfuel => ?_⟩
    rw [List.drop_eq_getElem_cons hi]
    show (Pipeline.run fuel pipelines[i] chs).bind _ = _
    rw [hrun fuel (by omega)]
    show (ExecutionGraph.runInOrder fuel (pipelines.drop (i + 1)) r.2.1).bind _ = _
    rw [hrest fuel (by omega)]
    rfl

/-- When every pipeline has finished, the pipelines one after the other finish too. -/
theorem Pieces.exists_inOrder (h : Pieces pipelines) (ht : Steps Step (start pipelines) t s)
    (hs : s.Finished) : ∃ m outs, ∀ fuel, m ≤ fuel →
      ExecutionGraph.runInOrder fuel pipelines (fun _ => {}) = some outs := by
  have hfirst : ∀ p ch, pipelines[0]? = some p → Chain.inputChannel p ≠ some ch := by
    intro p ch hp hch
    have := (h.reads_all ht hs hp hch).1
    omega
  exact h.exists_inOrder_from ht hs (i := 0) (Nat.zero_add _) (fun _ _ => rfl)
    fun p ch hp hch => absurd hch (hfirst p ch hp)

end Job

/-! ## A linear graph -/

/-- **Every interleaving** of the pipelines of a linear graph: the sink has received an initial part
of what it receives when the pipelines run one after the other, and all of it when every pipeline
has finished; what is written to a channel is read in order or waits there; and when the end of a
channel is read, all that is ever written to it has been read. -/
theorem interleaving {U : Type} {g : DataflowGraph U} {source : SourceLogicalOperator U}
    {transforms : List (LogicalImpl U)} {sink : SinkLogicalOperator U}
    (hg : g.IsLinear source transforms sink) {keys : List OperatorId}
    (hkeys : keys.Perm g.inDegreeKeys) :
    ∃ n pipelines, (∀ fuel, n ≤ fuel → ExecutionGraph.build fuel keys g = some pipelines) ∧
      ∀ t s, Steps Job.Step (Job.start pipelines) t s →
        (∀ fuel outs, ExecutionGraph.runInOrder fuel pipelines (fun _ => {}) = some outs →
          sinks (calls t) <+: sinks outs) ∧
        (s.Finished → ∃ m outs, (∀ fuel, m ≤ fuel →
          ExecutionGraph.runInOrder fuel pipelines (fun _ => {}) = some outs) ∧
          sinks (calls t) = sinks outs) ∧
        (∀ ch, reads ch (acts t) ++ (s.channels ch).queue = writes ch (acts t)) ∧
        ∀ before i ch after, t = before ++ (i, .read ch none) :: after →
          reads ch (acts before) = writes ch (acts before) ∧ writes ch (acts after) = [] := by
  have hpieces := hg.pieces
  refine ⟨transforms.length + 2, _, fun fuel hfuel => hg.build_eq hkeys hfuel, fun t s ht =>
    ⟨fun fuel outs hrun => (hpieces.sink_agrees hrun ht).1, fun hs => ?_,
      Job.reads_append_queue ht, fun before i ch after hsplit => (hpieces.read_end ht hsplit).2⟩⟩
  obtain ⟨m, outs, hrun⟩ := hpieces.exists_inOrder ht hs
  exact ⟨m, outs, hrun, (hpieces.sink_agrees (hrun m (Nat.le_refl m)) ht).2 hs⟩

/-- The source yields the events 1, 2 and 3; a count window of 2 flushes the last one. -/
def pairs : DataflowGraph (List (Event Record)) where
  operators :=
    [⟨⟨0⟩, "source", 1, .source ⟨fun u => (u.head?, u.tail), [eventAt 1, eventAt 2, eventAt 3],
        0, 100⟩⟩,
      ⟨⟨1⟩, "pairs", 1, .window ⟨countTumblingWindow 2, fun u es => (es.headD (eventAt 0), u), []⟩⟩,
      ⟨⟨2⟩, "sink", 1, .sink ⟨fun u _ => u, []⟩⟩]
  edges := [⟨⟨0⟩, ⟨0⟩, ⟨1⟩, .forward⟩, ⟨⟨1⟩, ⟨1⟩, ⟨2⟩, .forward⟩]

theorem pairs_isLinear : pairs.IsLinear
    ⟨fun u => (u.head?, u.tail), [eventAt 1, eventAt 2, eventAt 3], 0, 100⟩
    [.window ⟨countTumblingWindow 2, fun u es => (es.headD (eventAt 0), u), []⟩]
    ⟨fun u _ => u, []⟩ := by
  refine ⟨⟨pairs.operators, ⟨List.Perm.refl _, by decide, by decide⟩, rfl⟩, ?_⟩
  simp [LogicalImpl.isTransform]

/-- The sink of this graph receives the events 1 and 3 or fewer, whatever the schedule. -/
theorem interleaving_pairs : ∃ pipelines, ExecutionGraph.build 3 pairs.inDegreeKeys pairs =
    some pipelines ∧ ∀ t s, Steps Job.Step (Job.start pipelines) t s →
      sinks (calls t) <+: [eventAt 1, eventAt 3] := by
  obtain ⟨n, pipelines, hbuild, h⟩ :=
    interleaving pairs_isLinear (List.Perm.refl pairs.inDegreeKeys)
  have hbuild' := hbuild (max n 3) (Nat.le_max_left n 3)
  rw [pairs_isLinear.build_eq (List.Perm.refl _) (Nat.le_max_right n 3)] at hbuild'
  refine ⟨pipelines, (pairs_isLinear.build_eq (List.Perm.refl _) (Nat.le_refl 3)).trans hbuild',
    fun t s ht => ?_⟩
  cases hbuild'
  exact (h t s ht).1 5 [.write 0 (eventAt 1), .write 0 (eventAt 3), .closeChannel 0,
    .sink (eventAt 1), .sink (eventAt 3)] (by decide +kernel)

end Xtream
