import Xtream.Engine.FusedSplit
import Xtream.Engine.Returns
import Xtream.Engine.Termination
import Xtream.Lib.KahnApart

/-!
# Graphs that share a slot engine (`SlotEngine::submit(DataflowGraph)`)

A graph that is submitted as it is becomes one chain, whose windows pass their results on with
`next`: its thread uses no channel, and does not wait for the others.

* `Job.Apart.agrees`: each thread takes the steps that it takes alone;
* `submitted_graphs_apart`: what the sinks have received, with any number of slots;
* `submitted_graphs_end_iff`: when `execute` can come to its end.
-/

namespace Xtream

open KahnNetwork

variable {U : Type}

/-! ## Submission -/

/-- `submit(DataflowGraph)`: the chain of the graph, behind the pipelines that are there. -/
def SlotEngine.submitGraph (fuel : Nat) (keys : List OperatorId) (g : DataflowGraph U)
    (s : SlotEngine U) : Option (SlotEngine U) :=
  (Pipeline.ofGraph fuel keys g).map fun ops => s.submit { root := ops }

/-- The graphs, submitted one after the other. The hash table of each `compile` has an order of its
own. -/
inductive SlotEngine.Submits : SlotEngine U → List (DataflowGraph U) → SlotEngine U → Prop
  | nil (s : SlotEngine U) : Submits s [] s
  | cons {s s' s'' : SlotEngine U} {g : DataflowGraph U} {graphs : List (DataflowGraph U)}
      {k : Nat} {keys : List OperatorId} : keys.Perm g.inDegreeKeys →
      (∀ fuel, k ≤ fuel → s.submitGraph fuel keys g = some s') → Submits s' graphs s'' →
      Submits s (g :: graphs) s''

/-- `execute` has been called. -/
def Program.called (e : SlotEngine U) : Program U where
  engine := { e with running := true, execute := .assign 0 }

/-- The chain of a submitted graph. -/
def DataflowGraph.CompilesTo (g : DataflowGraph U) (ops : Chain U) : Prop :=
  ∃ keys k, keys.Perm g.inDegreeKeys ∧ ∀ fuel, k ≤ fuel → Pipeline.ofGraph fuel keys g = some ops

/-! ## Chains without channels -/

namespace Chain

/-- The operators use no channel. -/
def Private (ops : Chain U) : Prop :=
  ∀ sh ∈ shapes ops, sh.inputChannel = none ∧ sh.outputChannel = none

variable {ops : Chain U}

theorem Private.lastWrites (h : ops.Private) : Thread.LastWrites (shapes ops) := by
  intro k ch hch
  obtain ⟨sh, hsh, hch⟩ := Option.bind_eq_some_iff.mp hch
  rw [(h sh (List.mem_of_getElem? hsh)).2] at hch
  cases hch

/-- A chain without channels is a job of its own. -/
theorem Private.pieces (h : ops.Private) (hdone : isDone ops = false) : Job.Pieces [ops] := by
  refine ⟨fun i p hp => ?_, fun p hp => List.mem_singleton.mp hp ▸ hdone⟩
  cases i with
  | succ i => cases hp
  | zero =>
    cases hp
    refine ⟨fun ch hch => ?_, fun sh hsh ch hch => ?_, h.lastWrites, fun _ => rfl⟩
    · obtain ⟨sh, hsh, hch⟩ := Option.bind_eq_some_iff.mp hch
      rw [(h sh (List.mem_of_mem_head? hsh)).1] at hch
      cases hch
    · rw [(h sh hsh).2] at hch
      cases hch

/-- The steps of its thread use no channel. -/
theorem Private.channel? (h : ops.Private) {as : List Action} {th : Thread U}
    (hsteps : Steps Thread.Step (.start ops) as th) : ∀ a ∈ as, a.channel? = none := by
  intro a ha
  have hallows := ((Thread.fits_start ops).steps h.lastWrites hsteps).2 a ha
  cases a with
  | read ch v =>
    obtain ⟨sh, hsh, hch⟩ := Option.bind_eq_some_iff.mp hallows
    rw [(h sh (List.mem_of_mem_head? hsh)).1] at hch
    cases hch
  | write ch e =>
    obtain ⟨sh, hsh, hch⟩ := hallows
    rw [(h sh hsh).2] at hch
    cases hch
  | close ch =>
    obtain ⟨sh, hsh, hch⟩ := hallows
    rw [(h sh hsh).2] at hch
    cases hch
  | out o => rfl

end Chain

namespace Job

/-- A step without a channel leaves the channels alone. -/
theorem effect_of_channel_none (chs : Channels) {a : Action} (ha : a.channel? = none) :
    Effect chs a chs := by
  cases a with
  | out o => exact .out chs o
  | _ => cases ha

/-- Steps of one thread that use no channel. -/
theorem steps_tagged {s : Job U} {i : Nat} {as : List Action} {th : Thread U}
    (h : Steps Thread.Step (s.threads i) as th) (has : ∀ a ∈ as, a.channel? = none) :
    Steps Step s (as.map (i, ·)) ⟨Function.update s.threads i th, s.channels⟩ := by
  induction as generalizing s with
  | nil =>
    cases h
    rw [Function.update_eq_self]
    exact .nil s
  | cons a as ih =>
    obtain ⟨q, hq, hrest⟩ := Steps.cons_iff.mp h
    obtain ⟨ha, has⟩ := List.forall_mem_cons.mp has
    have hih := @ih ⟨Function.update s.threads i q, s.channels⟩ (by
      simp only [Function.update_self]
      exact hrest) has
    simp only [Function.update_idem] at hih
    exact .cons (.thread hq (effect_of_channel_none _ ha)) hih

variable {ops : Chain U}

/-- `run` of a chain without channels: the steps of its thread. -/
theorem steps_alone (hops : ops.Private) (hdone : Chain.isDone ops = false) {fuel : Nat}
    {r : Chain U × Channels × List Output} (h : Pipeline.run fuel ops (fun _ => {}) = some r) :
    ∃ as th, Steps Thread.Step (.start ops) as th ∧ th.Finished ∧ received as = sinks r.2.2 := by
  have hrun : ExecutionGraph.runInOrder fuel [ops] (fun _ => {}) = some r.2.2 := by
    rw [ExecutionGraph.runInOrder_cons, h]
    simp [ExecutionGraph.runInOrder]
  obtain ⟨s, ⟨u, hcalls, hu⟩, hfin⟩ := exists_run hrun
  refine ⟨localActs 0 u, _, (steps_spec rfl hu).2.2 0, hfin 0, ?_⟩
  rw [← hcalls, (hops.pieces hdone).sinks_eq hu]
  rfl

/-- When its thread comes to its end, so does `run`. -/
theorem run_of_steps (hops : ops.Private) (hdone : Chain.isDone ops = false) {as : List Action}
    {th : Thread U} (h : Steps Thread.Step (.start ops) as th) (hth : th.Finished) :
    ∃ fuel r, Pipeline.run fuel ops (fun _ => {}) = some r := by
  have hsteps := @steps_tagged U (start [ops]) 0 as th h (hops.channel? h)
  obtain ⟨m, outs, hrun⟩ := (hops.pieces hdone).exists_inOrder hsteps fun i => by
    cases i with
    | zero =>
      simp only [Function.update_self]
      exact hth
    | succ i =>
      simp only [Function.update_of_ne (Nat.succ_ne_zero i)]
      exact ⟨rfl, rfl⟩
  obtain ⟨r, hr, -⟩ := Option.bind_eq_some_iff.mp (hrun m (Nat.le_refl m))
  exact ⟨m, r, hr⟩

/-! ## Jobs of such chains -/

/-- Chains that do not wait for each other. -/
structure Apart (pipelines : List (Chain U)) : Prop where
  quiet : ∀ p ∈ pipelines, p.Private
  isDone : ∀ p ∈ pipelines, Chain.isDone p = false

variable {pipelines : List (Chain U)} {s : Job U} {t : List (Nat × Action)} {i : Nat}

theorem start_threads (h : pipelines[i]? = some ops) :
    (start pipelines).threads i = .start ops := by
  show (pipelines[i]?).elim _ Thread.start = _
  rw [h]
  rfl

/-- Each thread takes the steps that it takes alone. -/
theorem Apart.agrees (h : Apart pipelines) (ht : Steps Step (start pipelines) t s)
    (hops : pipelines[i]? = some ops) {fuel : Nat} {r : Chain U × Channels × List Output}
    (hrun : Pipeline.run fuel ops (fun _ => {}) = some r) :
    received (localActs i t) <+: sinks r.2.2 ∧
      ((s.threads i).Finished → received (localActs i t) = sinks r.2.2) := by
  have hmem := List.mem_of_getElem? hops
  obtain ⟨as, th, has, hth, hreceived⟩ := steps_alone (h.quiet ops hmem) (h.isDone ops hmem) hrun
  have hlocal := (steps_spec rfl ht).2.2 i
  rw [start_threads hops] at hlocal
  have hinitial := hlocal.initial Thread.deterministic has ((h.quiet ops hmem).channel? has)
    hth.no_step
  rw [← hreceived]
  refine ⟨received_initial hinitial, fun hfin => ?_⟩
  rcases hlocal.goes_on Thread.deterministic has hinitial with ⟨heq, -⟩ | ⟨b, x, -, hstep⟩
  · rw [heq]
  · exact absurd hstep (hfin.no_step b x)

/-- The first `n` chains come to their end when they run alone. -/
def Ends (n : Nat) (pipelines : List (Chain U)) : Prop :=
  ∀ i < n, ∀ ops, pipelines[i]? = some ops → ∃ fuel r, Pipeline.run fuel ops (fun _ => {}) = some r

/-- The threads do not wait for each other: there is a bound on the steps of the first `n`, and
each of them can go on until it has finished. -/
theorem Apart.bounded (h : Apart pipelines) {n : Nat} (hn : n ≤ pipelines.length)
    (hends : Ends n pipelines) : ∃ bound, ∀ t s, Steps Step (start pipelines) t s →
      (∀ x ∈ t, x.1 < n) → t.length ≤ bound ∧ Program.CanGoOn n s := by
  have halone : ∀ i, ∃ as, i < n → ∃ th, Steps Thread.Step ((start pipelines).threads i) as th ∧
      th.Finished ∧ ∀ a ∈ as, a.channel? = none := by
    intro i
    by_cases hi : i < n
    · have hops : pipelines[i]? = some pipelines[i] := List.getElem?_eq_getElem _
      have hmem := List.mem_of_getElem? hops
      obtain ⟨fuel, r, hrun⟩ := hends i hi _ hops
      obtain ⟨as, th, has, hth, -⟩ :=
        steps_alone (h.quiet _ hmem) (h.isDone _ hmem) hrun
      exact ⟨as, fun _ => ⟨th, start_threads hops ▸ has, hth, (h.quiet _ hmem).channel? has⟩⟩
    · exact ⟨[], fun hlt => absurd hlt hi⟩
  choose alone halone using halone
  obtain ⟨u, hu⟩ := exists_tagged alone (List.range n) List.nodup_range
  refine ⟨u.length, fun t s ht hlt => ?_⟩
  have hlocal := (steps_spec rfl ht).2.2
  have hinitial : ∀ i < n, localActs i t <+: alone i := by
    intro i hi
    obtain ⟨th, has, hth, hchannels⟩ := halone i hi
    exact (hlocal i).initial Thread.deterministic has hchannels hth.no_step
  refine ⟨length_le fun i => ?_, ?_⟩
  · rw [hu]
    by_cases hi : i < n
    · rw [if_pos (List.mem_range.mpr hi)]
      exact hinitial i hi
    · have hnil : localActs i t = [] := List.eq_nil_iff_forall_not_mem.mpr fun a ha =>
        hi (hlt _ (mem_localActs.mp ha))
      rw [hnil]
      exact List.nil_prefix
  · by_cases hall : ∀ i < n, (s.threads i).Finished
    · exact Or.inl hall
    · simp only [not_forall] at hall
      obtain ⟨i, hi, hne⟩ := hall
      obtain ⟨th, has, hth, hchannels⟩ := halone i hi
      rcases (hlocal i).goes_on Thread.deterministic has (hinitial i hi) with
        ⟨-, heq⟩ | ⟨b, x, hb, hstep⟩
      · exact absurd (heq ▸ hth) hne
      · exact Or.inr ⟨(i, b), _, hi, .thread hstep (effect_of_channel_none _ (hchannels b hb))⟩

end Job

/-! ## Graphs -/

/-- The chain of a linear graph uses no channel. -/
theorem DataflowGraph.IsLinear.quiet {g : DataflowGraph U} {source : SourceLogicalOperator U}
    {transforms : List (LogicalImpl U)} {sink : SinkLogicalOperator U}
    (hg : g.IsLinear source transforms sink) :
    Chain.Private (source.compile :: (compileTransforms transforms ++ [sink.compile])) := by
  intro sh hsh
  obtain ⟨op, hop, rfl⟩ := List.mem_map.mp hsh
  rcases List.mem_cons.mp hop with rfl | hop
  · exact ⟨rfl, rfl⟩
  · rcases List.mem_append.mp hop with hop | hop
    · rcases isTransform_compileTransforms hg.transforms op hop with h | h | h
      · rw [h]
        exact ⟨rfl, rfl⟩
      · rw [h]
        exact ⟨rfl, rfl⟩
      · rw [h]
        exact ⟨rfl, rfl⟩
    · obtain rfl := List.mem_singleton.mp hop
      exact ⟨rfl, rfl⟩

/-- The graphs go from a source to a sink. -/
def AllLinear (graphs : List (DataflowGraph U)) : Prop :=
  ∀ g ∈ graphs, ∃ source transforms sink, g.IsLinear source transforms sink

/-- They can be submitted. -/
theorem SlotEngine.exists_submits {graphs : List (DataflowGraph U)} (hlinear : AllLinear graphs)
    (s : SlotEngine U) : ∃ e, Submits s graphs e := by
  induction graphs generalizing s with
  | nil => exact ⟨s, .nil s⟩
  | cons g graphs ih =>
    obtain ⟨⟨source, transforms, sink, hg⟩, hrest⟩ := List.forall_mem_cons.mp hlinear
    obtain ⟨e, he⟩ := ih hrest
      (s.submit { root := source.compile :: (compileTransforms transforms ++ [sink.compile]) })
    refine ⟨e, .cons (k := transforms.length + 2) (List.Perm.refl _) (fun fuel hfuel => ?_) he⟩
    rw [submitGraph, hg.ofGraph_eq (List.Perm.refl _) hfuel, Option.map_some]

open Program (submissions) in
theorem SlotEngine.loaded_concat (n : Nat) (chains : List (Chain U)) (ops : Chain U) :
    (loaded n (submissions chains)).submit { root := ops } =
      loaded n (submissions (chains ++ [ops])) := by
  simp [loaded, submit, submissions, List.mapIdx_concat]

open Program (submissions) in
/-- The engine with the graphs submitted has their chains, which use no channel. -/
theorem SlotEngine.Submits.loaded {graphs : List (DataflowGraph U)} (hlinear : AllLinear graphs)
    {n : Nat} {chains : List (Chain U)} {e : SlotEngine U}
    (h : Submits (SlotEngine.loaded n (submissions chains)) graphs e) :
    ∃ chains', e = SlotEngine.loaded n (submissions (chains ++ chains')) ∧ Job.Apart chains' ∧
      List.Forall₂ DataflowGraph.CompilesTo graphs chains' := by
  generalize hs : SlotEngine.loaded n (submissions chains) = s at h
  induction h generalizing chains with
  | nil s =>
    exact ⟨[], by rw [List.append_nil, hs], ⟨List.forall_mem_nil _, List.forall_mem_nil _⟩, .nil⟩
  | @cons s s' _ g graphs k keys hkeys hsubmit _ ih =>
    subst hs
    obtain ⟨⟨source, transforms, sink, hg⟩, hrest⟩ := List.forall_mem_cons.mp hlinear
    have hchain : ∀ fuel, transforms.length + 2 ≤ fuel → Pipeline.ofGraph fuel keys g = some _ :=
      fun _ hfuel => hg.ofGraph_eq hkeys hfuel
    have hs' := hsubmit (max k (transforms.length + 2)) (Nat.le_max_left _ _)
    rw [submitGraph, hchain _ (Nat.le_max_right _ _), Option.map_some, loaded_concat] at hs'
    obtain ⟨chains', he, ⟨hquiet, hdone⟩, hcompiles⟩ := ih hrest (Option.some.inj hs')
    refine ⟨_ :: chains', ?_, ⟨List.forall_mem_cons.mpr ⟨hg.quiet, hquiet⟩,
      List.forall_mem_cons.mpr ⟨rfl, hdone⟩⟩, .cons ⟨keys, _, hkeys, hchain⟩ hcompiles⟩
    rw [he, List.append_assoc]
    rfl

section

variable {graphs : List (DataflowGraph U)} {n : Nat} {e : SlotEngine U}

/-- **Graphs that share an engine** do not interfere. At any time and with any number of slots, each
sink has received an initial part of what it receives when its graph runs alone. When `execute` has
returned there were no more slots than graphs, the sinks of the first graphs (one for each slot)
have received everything, and the other graphs have not taken a step. -/
theorem submitted_graphs_apart (hlinear : AllLinear graphs)
    (h : SlotEngine.Submits { slotCount := n } graphs e) :
    ∃ chains, List.Forall₂ DataflowGraph.CompilesTo graphs chains ∧
      ∀ t s, Steps Program.Step (.called e) t s →
        (∀ i ops fuel r, chains[i]? = some ops → Pipeline.run fuel ops (fun _ => {}) = some r →
          received (localActs i (Program.jobActs t)) <+: sinks r.2.2) ∧
        (s.engine.execute = .idle → n ≤ graphs.length ∧
          (∀ i < n, ∀ ops, chains[i]? = some ops → ∃ fuel r,
            Pipeline.run fuel ops (fun _ => {}) = some r ∧
              received (localActs i (Program.jobActs t)) = sinks r.2.2) ∧
          ∀ i, n ≤ i → localActs i (Program.jobActs t) = []) := by
  obtain ⟨chains, rfl, hapart, hcompiles⟩ := @SlotEngine.Submits.loaded U _ hlinear n [] e h
  refine ⟨chains, hcompiles, fun t s ht => ?_⟩
  obtain ⟨hsound, hjob⟩ := @Program.steps_job U n chains s t ht
  refine ⟨fun i ops fuel r hops hrun => (hapart.agrees hjob hops hrun).1, fun hidle =>
    ⟨hcompiles.length_eq ▸ hsound.le_of_idle hidle, fun i hi ops hops => ?_, fun i hi => ?_⟩⟩
  · have hfinished := hsound.thread_finished (hsound.finished_of_idle hidle hi)
    have hmem := List.mem_of_getElem? hops
    obtain ⟨fuel, r, hrun⟩ := Job.run_of_steps (hapart.quiet ops hmem) (hapart.isDone ops hmem)
      (Job.start_threads hops ▸ (Job.steps_spec rfl hjob).2.2 i) hfinished
    exact ⟨fuel, r, hrun, (hapart.agrees hjob hops hrun).2 hfinished⟩
  · exact List.eq_nil_iff_forall_not_mem.mpr fun a ha => Nat.not_lt.mpr hi
      (@Program.lt_of_mem_jobActs U n chains s t ht i a (mem_localActs.mp ha))

/-- The chains of two graphs. -/
theorem CompilesTo.pair {chains : List (Chain (List (Event Record)))}
    (h : List.Forall₂ DataflowGraph.CompilesTo [pairs, twoWindows] chains) : ∃ ops ops',
      chains = [ops, ops'] ∧ Pipeline.ofGraph 4 pairs.inDegreeKeys pairs = some ops ∧
      Pipeline.ofGraph 4 twoWindows.inDegreeKeys twoWindows = some ops' := by
  cases h with
  | @cons _ ops _ _ hops hrest =>
    cases hrest with
    | @cons _ ops' _ _ hops' hnil =>
      cases hnil
      obtain ⟨keys, k, hkeys, hops⟩ := hops
      obtain ⟨keys', k', hkeys', hops'⟩ := hops'
      have h₁ := hops (max k 3) (Nat.le_max_left k 3)
      have h₂ := hops' (max k' 4) (Nat.le_max_left k' 4)
      rw [pairs_isLinear.ofGraph_eq hkeys (Nat.le_max_right k 3)] at h₁
      rw [twoWindows_isLinear.ofGraph_eq hkeys' (Nat.le_max_right k' 4)] at h₂
      refine ⟨ops, ops', rfl, ?_, ?_⟩
      · rw [← h₁]
        exact pairs_isLinear.ofGraph_eq (List.Perm.refl _) (by decide)
      · rw [← h₂]
        exact twoWindows_isLinear.ofGraph_eq (List.Perm.refl _) (by decide)

theorem allLinear_pair : AllLinear [pairs, twoWindows] :=
  List.forall_mem_cons.mpr ⟨⟨_, _, _, pairs_isLinear⟩,
    List.forall_mem_singleton.mpr ⟨_, _, _, twoWindows_isLinear⟩⟩

/-- Two graphs and one slot: only the first one runs. -/
theorem submitted_graphs_apart_pair : ∃ e,
    SlotEngine.Submits { slotCount := 1 } [pairs, twoWindows] e ∧
      ∀ t s, Steps Program.Step (.called e) t s → s.engine.execute = .idle →
        received (localActs 0 (Program.jobActs t)) = [eventAt 1] ∧
          localActs 1 (Program.jobActs t) = [] := by
  obtain ⟨e, he⟩ := SlotEngine.exists_submits allLinear_pair { slotCount := 1 }
  obtain ⟨chains, hchains, h⟩ := submitted_graphs_apart allLinear_pair he
  obtain ⟨ops, ops', rfl, hops, -⟩ := CompilesTo.pair hchains
  refine ⟨e, he, fun t s ht hidle => ?_⟩
  obtain ⟨-, hfirst, hrest⟩ := (h t s ht).2 hidle
  refine ⟨?_, hrest 1 (Nat.le_refl 1)⟩
  obtain ⟨fuel, r, hrun, hreceived⟩ := hfirst 0 Nat.one_pos ops rfl
  have halone : ((Pipeline.ofGraph 4 pairs.inDegreeKeys pairs).bind fun ops =>
      (Pipeline.run 6 ops fun _ => {}).map fun r => sinks r.2.2) = some [eventAt 1] := by
    decide +kernel
  rw [hops, Option.bind_some, Option.map_eq_some_iff] at halone
  obtain ⟨r', hrun', hsinks⟩ := halone
  have hsame := (Pipeline.run_mono (Nat.le_max_left fuel 6) hrun).symm.trans
    (Pipeline.run_mono (Nat.le_max_right fuel 6) hrun')
  rw [hreceived, Option.some.inj hsame, hsinks]

/-- **With a graph for each slot** the threads take a bounded number of steps and `execute` can come
to its end from every state that is reached, iff each of the first graphs (one for each slot) comes
to its end when it runs alone. -/
theorem submitted_graphs_end_iff (hlinear : AllLinear graphs)
    (h : SlotEngine.Submits { slotCount := n } graphs e) (hn : n ≤ graphs.length) :
    ∃ chains, List.Forall₂ DataflowGraph.CompilesTo graphs chains ∧
      ((∀ i < n, ∀ ops, chains[i]? = some ops → ∃ fuel r,
          Pipeline.run fuel ops (fun _ => {}) = some r) ↔
        ∃ bound, ∀ t s, Steps Program.Step (.called e) t s → Program.slotSteps t ≤ bound ∧
          ∃ t' s', Steps Program.Step s t' s' ∧ s'.engine.execute = .idle) := by
  obtain ⟨chains, rfl, hapart, hcompiles⟩ := @SlotEngine.Submits.loaded U _ hlinear n [] e h
  have hlen : n ≤ chains.length := hcompiles.length_eq ▸ hn
  refine ⟨chains, hcompiles, fun hends => ?_, fun ⟨bound, hbound⟩ i hi ops hops => ?_⟩
  · obtain ⟨bound, hbound⟩ := hapart.bounded hlen hends
    refine ⟨4 * n + 2 * bound, fun t s ht => Program.exists_return hlen (fun t s ht => ?_) ht⟩
    exact hbound _ _ (Program.steps_job ht).2 fun x hx => Program.lt_of_mem_jobActs ht hx
  · obtain ⟨-, t, s, ht, hidle⟩ := hbound [] _ (.nil _)
    obtain ⟨hsound, hjob⟩ := @Program.steps_job U n chains s t ht
    have hmem := List.mem_of_getElem? hops
    exact Job.run_of_steps (hapart.quiet ops hmem) (hapart.isDone ops hmem)
      (Job.start_threads hops ▸ (Job.steps_spec rfl hjob).2.2 i)
      (hsound.thread_finished (hsound.finished_of_idle hidle hi))

/-- Two graphs and two slots. -/
theorem submitted_graphs_end_iff_pair : ∃ e,
    SlotEngine.Submits { slotCount := 2 } [pairs, twoWindows] e ∧
      ∃ bound, ∀ t s, Steps Program.Step (.called e) t s → Program.slotSteps t ≤ bound ∧
        ∃ t' s', Steps Program.Step s t' s' ∧ s'.engine.execute = .idle := by
  obtain ⟨e, he⟩ := SlotEngine.exists_submits allLinear_pair { slotCount := 2 }
  obtain ⟨chains, hchains, h⟩ := submitted_graphs_end_iff allLinear_pair he (Nat.le_refl 2)
  obtain ⟨ops, ops', rfl, hops, hops'⟩ := CompilesTo.pair hchains
  have halone : (((Pipeline.ofGraph 4 pairs.inDegreeKeys pairs).bind fun ops =>
        Pipeline.run 6 ops fun _ => {}).isSome ∧
      ((Pipeline.ofGraph 4 twoWindows.inDegreeKeys twoWindows).bind fun ops =>
        Pipeline.run 6 ops fun _ => {}).isSome) := by
    decide +kernel
  rw [hops, hops', Option.bind_some, Option.bind_some] at halone
  refine ⟨e, he, h.mp fun i hi ops'' hops'' => ?_⟩
  match i, hi with
  | 0, _ =>
    cases hops''
    exact ⟨6, Option.isSome_iff_exists.mp halone.1⟩
  | 1, _ =>
    cases hops''
    exact ⟨6, Option.isSome_iff_exists.mp halone.2⟩

end

/-! ## One chain and several pipelines -/

/-- What a program computes: whatever its threads do, the slots take a bounded number of steps,
`execute` can come to its end, and the sink has received an initial part of the list, and all of it
when `execute` has returned. -/
def Program.Computes (pipelines : List (Chain U)) (received : List (Event Record)) : Prop :=
  ∃ bound, ∀ t s, Steps Program.Step (.start pipelines.length pipelines) t s →
    slotSteps t ≤ bound ∧ (∃ t' s', Steps Program.Step s t' s' ∧ s'.engine.execute = .idle) ∧
    sinks (calls (jobActs t)) <+: received ∧
    (s.engine.execute = .idle → sinks (calls (jobActs t)) = received)

theorem Program.computes_of_inOrder {pipelines : List (Chain U)} (hpieces : Job.Pieces pipelines)
    {fuel : Nat} {outs : List Output}
    (hrun : ExecutionGraph.runInOrder fuel pipelines (fun _ => {}) = some outs) :
    Computes pipelines (sinks outs) := by
  obtain ⟨bound, hbound⟩ := ends_of_inOrder hpieces hrun
  refine ⟨bound, fun t s ht => ⟨(hbound t s ht).1, (hbound t s ht).2, ?_⟩⟩
  obtain ⟨hinitial, hall⟩ := hpieces.sink_agrees hrun (steps_job ht).2
  exact ⟨hinitial, fun hidle => hall (job_finished_of_idle ht hidle)⟩

/-- **A graph and its pipelines**, submitted to an engine, compute the same: with a source that comes
to an end, maps, filters and time windows whose ends do not wrap, whatever the threads do. -/
theorem graph_and_pipelines_agree {g : DataflowGraph U} {source : SourceLogicalOperator U}
    {transforms : List (LogicalImpl U)} {sink : SinkLogicalOperator U}
    (hg : g.IsLinear source transforms sink) (htransforms : ∀ impl ∈ transforms, impl.Fusable)
    {es : List (Event Record)}
    (hes : SourcePhysicalOperator.Yields source.func source.captured es)
    {keys keys' : List OperatorId} (hkeys : keys.Perm g.inDegreeKeys)
    (hkeys' : keys'.Perm g.inDegreeKeys)
    (hnw : Chain.NoWrap (compileTransforms transforms) (source.sends es)) :
    ∃ k ops pipelines received, (∀ fuel, k ≤ fuel → Pipeline.ofGraph fuel keys g = some ops ∧
        ExecutionGraph.build fuel keys' g = some pipelines) ∧
      Program.Computes [ops] received ∧ Program.Computes pipelines received := by
  have hfusable := fusable_compileTransforms htransforms
  obtain ⟨m, ys, h⟩ := ExecutionGraph.runInOrder_pipelines hfusable ⟨sink.func, sink.captured⟩
    (Chain.feeds_source hes source.allowedLateness source.watermarkInterval fun _ => {})
    (List.forall_mem_nil _) (fun c hc => by cases hc) (k := 0) (fun _ _ => rfl) hnw
  obtain ⟨hresults, hsplit⟩ := h (max m (es.length + 1)) (Nat.le_max_left _ _)
  obtain ⟨outs, hrun, hsinks⟩ := Option.map_eq_some_iff.mp hsplit
  refine ⟨transforms.length + 2, _, _, events ys, fun fuel hfuel => ⟨hg.ofGraph_eq hkeys hfuel,
    hg.build_eq hkeys' hfuel⟩, ?_, hsinks ▸ Program.computes_of_inOrder hg.pieces hrun⟩
  -- the one chain is a job of its own
  have hfused := congrArg (Option.map fun r => sinks r.2) (@Pipeline.run_source U
    (max m (es.length + 1)) (.create source.func source.captured source.allowedLateness
      source.watermarkInterval) es rfl hes (Nat.le_max_right _ _)
    (compileTransforms transforms ++ [sink.compile]) fun _ => {})
  rw [Option.map_map, Option.map_map] at hfused
  have hchain := hfused.trans (Chain.runChain_sinks hfusable ⟨sink.func, sink.captured⟩
    (max m (es.length + 1)) _)
  obtain ⟨r, hr, hreceived⟩ := Option.map_eq_some_iff.mp (hchain.trans
    (congrArg (Option.map events) hresults))
  have hone : ExecutionGraph.runInOrder (max m (es.length + 1)) [source.compile ::
      (compileTransforms transforms ++ [sink.compile])] (fun _ => {}) = some r.2.2 := by
    rw [ExecutionGraph.runInOrder_cons, show Pipeline.run _ (source.compile :: _) _ = _ from hr]
    simp [ExecutionGraph.runInOrder]
  rw [← show sinks r.2.2 = events ys from hreceived]
  exact Program.computes_of_inOrder (hg.quiet.pieces rfl) hone

theorem twoWindows_chain_noWrap : Chain.NoWrap (compileTransforms
      [LogicalImpl.window (U := List (Event Record))
          ⟨timeTumblingWindow 5, fun u es => (es.headD (eventAt 0), u), []⟩,
        .window ⟨timeTumblingWindow 10, fun u es => (es.headD (eventAt 0), u), []⟩])
    (SourceLogicalOperator.sends ⟨fun u => (u.head?, u.tail), [eventAt 3, eventAt 7], 0, 1⟩
      [eventAt 3, eventAt 7]) := by
  have htr : (TimeWindowPhysicalOperator.create (timeTumblingWindow 5)
      (fun u es => (es.headD (eventAt 0), u)) ([] : List (Event Record)) none).runToClose 5
      (SourceLogicalOperator.sends ⟨fun u => (u.head?, u.tail), [eventAt 3, eventAt 7], 0, 1⟩
        [eventAt 3, eventAt 7]) =
      some [[], [], [], [⟨5, [eventAt 3], eventAt 3⟩], [⟨10, [eventAt 7], eventAt 7⟩]] := by
    decide +kernel
  refine Chain.noWrap_timeWindow rfl (twoWindows_noWrap 5 (by decide) ?_ (by decide)) htr
    ⟨twoWindows_noWrap 10 (by decide) ?_ (by decide), fun _ _ _ => trivial⟩
  · unfold TimeWindowPhysicalOperator.Bounded
    decide +kernel
  · unfold TimeWindowPhysicalOperator.Bounded
    decide +kernel

/-- Two windows behind each other, in one chain and in three. -/
theorem graph_and_pipelines_agree_small : ∃ k ops pipelines received,
    (∀ fuel, k ≤ fuel → Pipeline.ofGraph fuel twoWindows.inDegreeKeys twoWindows = some ops ∧
      ExecutionGraph.build fuel twoWindows.inDegreeKeys.reverse twoWindows = some pipelines) ∧
    Program.Computes [ops] received ∧ Program.Computes pipelines received :=
  graph_and_pipelines_agree twoWindows_isLinear
    (List.forall_mem_cons.mpr ⟨⟨rfl, by decide⟩, List.forall_mem_singleton.mpr ⟨rfl, by decide⟩⟩)
    (show SourcePhysicalOperator.Yields _ _ [eventAt 3, eventAt 7] from ⟨rfl, rfl, rfl⟩)
    (List.Perm.refl _) (List.reverse_perm _) twoWindows_chain_noWrap

end Xtream
