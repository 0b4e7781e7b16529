import Xtream.Engine.StopRequests

/-!
# A thread that is stopped comes to its end

When the pipelines before it have finished, the channel of a pipeline is closed and holds all that is
left to read. From there on its thread waits for nobody, and it comes to its end whether a stop
request reaches it or not.

* `Thread.Ends`: a thread that can always go on, and comes to its end;
* `ends_channelSource`, `ends_source`: so do the threads of a job, where the operators return on all
  that they can be given.
-/

namespace Xtream

open KahnNetwork

variable {U : Type}

namespace Thread

/-- A thread that comes to its end, stopped or not, when these events are left in its channel and
nothing more is written to it. -/
inductive Ends : List (Event Record) → Thread U → Prop
  | finished {avail : List (Event Record)} {th : Thread U} : th.Finished → Ends avail th
  | call {avail : List (Event Record)} {ops : Chain U} {o : Output} {outs : List Output}
      {phase : Phase} : Ends avail ⟨ops, outs, phase⟩ → Ends avail ⟨ops, o :: outs, phase⟩
  | pull {avail : List (Event Record)} {ops : Chain U} {fuel : Nat} {r : Chain U × List Output} :
      ops ≠ [] → Chain.inputChannel ops = none →
      Chain.execute fuel none ops Pipeline.dummy = some r →
      Ends avail ⟨r.1, r.2, phaseAfter r.1⟩ → Ends avail ⟨ops, [], .closing 0⟩ →
      Ends avail ⟨ops, [], .pulling⟩
  | read {avail : List (Event Record)} {e : Event Record} {ops : Chain U} {ch : ChannelId}
      {fuel : Nat} {r : Chain U × List Output} : Chain.inputChannel ops = some ch →
      Chain.execute fuel (some e) ops Pipeline.dummy = some r →
      Ends avail ⟨r.1, r.2, phaseAfter r.1⟩ → Ends (e :: avail) ⟨ops, [], .closing 0⟩ →
      Ends (e :: avail) ⟨ops, [], .pulling⟩
  | readEnd {ops : Chain U} {ch : ChannelId} {fuel : Nat} {r : Chain U × List Output} :
      Chain.inputChannel ops = some ch →
      Chain.execute fuel none ops Pipeline.dummy = some r →
      Ends [] ⟨r.1, r.2, phaseAfter r.1⟩ → Ends [] ⟨ops, [], .closing 0⟩ →
      Ends [] ⟨ops, [], .pulling⟩
  | close {avail : List (Event Record)} {ops : Chain U} {k fuel : Nat}
      {r : Chain U × List Output} : k < ops.length → Chain.closeAt fuel k ops = some r →
      Ends avail ⟨r.1, r.2, .closing (k + 1)⟩ → Ends avail ⟨ops, [], .closing k⟩

variable {avail : List (Event Record)} {th th' : Thread U} {ops : Chain U} {a : Action}

theorem Ends.calls {phase : Phase} (h : Ends avail ⟨ops, [], phase⟩) (outs : List Output) :
    Ends avail ⟨ops, outs, phase⟩ := by
  induction outs with
  | nil => exact h
  | cons o outs ih => exact .call ih

/-- The closes return, one after the other. -/
theorem ends_closeFrom {fuel n k : Nat} {r : Chain U × List Output} (hk : k + n = ops.length)
    (h : Chain.closeFrom fuel n k ops = some r) : Ends avail ⟨ops, [], .closing k⟩ := by
  induction n generalizing k ops r with
  | zero => exact .finished ⟨rfl, congrArg Phase.closing hk⟩
  | succ n ih =>
    obtain ⟨s, hs, h⟩ := Option.bind_eq_some_iff.mp h
    obtain ⟨t, ht, -⟩ := Option.bind_eq_some_iff.mp h
    have hlen := Chain.closeAt_length hs
    exact .close (by omega) hs ((ih (by omega) ht).calls s.2)

/-- Behind the loop nothing is read. -/
theorem Ends.of_closing (h : Ends avail th) (hphase : th.phase ≠ .pulling)
    (avail' : List (Event Record)) : Ends avail' th := by
  induction h with
  | finished hth => exact .finished hth
  | call _ ih => exact .call (ih hphase)
  | pull => exact absurd rfl hphase
  | read => exact absurd rfl hphase
  | readEnd => exact absurd rfl hphase
  | close hk hr _ ih => exact .close hk hr (ih fun hpulling => by cases hpulling)

/-! ## The steps -/

/-- A thread in its loop ends when it is stopped. -/
theorem Ends.stop (h : Ends avail ⟨ops, [], .pulling⟩) : Ends avail ⟨ops, [], .closing 0⟩ := by
  cases h with
  | finished hth => cases hth.2
  | pull _ _ _ _ hstop => exact hstop
  | read _ _ _ hstop => exact hstop
  | readEnd _ _ _ hstop => exact hstop

/-- What is true of a thread stays true, when the events that it reads are of the kind that it can
be given. -/
theorem Ends.step {good : Event Record → Prop}
    (hlen : ∀ ch, Chain.inputChannel th.ops = some ch → 2 ≤ th.ops.length)
    (h : ∀ avail, (∀ e ∈ avail, good e) → Ends avail th) (hstep : StopStep th a th')
    (hgood : ∀ ch e, a = .read ch (some e) → good e) :
    ∀ avail, (∀ e ∈ avail, good e) → Ends avail th' := by
  intro avail havail
  cases hstep with
  | stop ops => exact (h avail havail).stop
  | step hstep =>
    cases hstep with
    | call ops o outs phase =>
      cases h avail havail with
      | finished hth => cases hth.1
      | call hrest => exact hrest
    | pull hne hinput hr =>
      cases h avail havail with
      | finished hth => cases hth.2
      | pull _ _ hr' hrest _ => rwa [Chain.execute_unique hr hr']
      | read hinput' => rw [hinput] at hinput'; cases hinput'
      | readEnd hinput' => rw [hinput] at hinput'; cases hinput'
    | @read ops ch v fuel r hinput hr =>
      cases v with
      | some e =>
        cases h (e :: avail) (List.forall_mem_cons.mpr ⟨hgood ch e rfl, havail⟩) with
        | finished hth => cases hth.2
        | pull _ hinput' => rw [hinput] at hinput'; cases hinput'
        | read _ hr' hrest _ => rwa [Chain.execute_unique hr hr']
      | none =>
        have hdone : Chain.isDone r.1 = true := Chain.execute_isDone hinput (hlen ch hinput) hr
        have hphase : phaseAfter r.1 = .closing 0 := if_pos hdone
        cases h [] (List.forall_mem_nil _) with
        | finished hth => cases hth.2
        | pull _ hinput' => rw [hinput] at hinput'; cases hinput'
        | readEnd _ hr' hrest _ =>
          rw [← Chain.execute_unique hr hr'] at hrest
          exact hrest.of_closing (fun hpulling => by rw [hphase] at hpulling; cases hpulling) avail
    | close hk hr =>
      cases h avail havail with
      | finished hth => exact absurd (Phase.closing.inj hth.2) (Nat.ne_of_lt hk)
      | close _ hr' hrest => rwa [Chain.closeAt_unique hr hr']

/-- A run of a thread: it can go on to its end. -/
theorem Ends.steps {good : Event Record → Prop} {ss : List Shape} (hlast : LastWrites ss)
    (hlen : ∀ ch, ss.head?.bind Shape.inputChannel = some ch → 2 ≤ ss.length) (hfits : Fits ss th)
    (h : ∀ avail, (∀ e ∈ avail, good e) → Ends avail th) {as : List Action}
    (hsteps : Steps StopStep th as th') (hgood : ∀ ch e, .read ch (some e) ∈ as → good e) :
    ∀ avail, (∀ e ∈ avail, good e) → Ends avail th' := by
  induction hsteps with
  | nil p => exact h
  | @cons p q r a as hstep _ ih =>
    refine ih (hfits.stopStep hlast hstep).1 (Ends.step (fun ch hinput => ?_) h hstep
      fun ch e ha => hgood ch e (List.mem_cons.mpr (Or.inl ha.symm)))
      fun ch e he => hgood ch e (List.mem_cons_of_mem a he)
    rw [Chain.inputChannel_shapes, hfits.shapes] at hinput
    have hle := hlen ch hinput
    rwa [← hfits.shapes, Chain.shapes, List.length_map] at hle

end Thread

/-! ## Chains that return -/

namespace Chain

variable {ops : Chain U} {xs ys : List StreamElement}

/-- The operators return on these elements, and on the closes behind them. -/
def Returns (ops : Chain U) (xs : List StreamElement) : Prop :=
  ∃ fuel, (runChain fuel ops xs).isSome = true

theorem Returns.feed (h : Returns ops (xs ++ ys)) :
    ∃ fuel t, Chain.feed fuel ops xs = some t := by
  obtain ⟨fuel, h⟩ := h
  obtain ⟨outs, houts⟩ := Option.isSome_iff_exists.mp h
  rw [runChain_eq, feed_append, Option.bind_eq_some_iff] at houts
  obtain ⟨r, hr, -⟩ := houts
  obtain ⟨t, ht, -⟩ := Option.bind_eq_some_iff.mp hr
  exact ⟨fuel, t, ht⟩

/-- What is left of the elements, behind the first ones. -/
theorem Returns.rest (h : Returns ops (xs ++ ys)) {fuel : Nat} {t : Chain U × List Output}
    (hfeed : Chain.feed fuel ops xs = some t) : Returns t.1 ys := by
  obtain ⟨fuel', h⟩ := h
  obtain ⟨outs, houts⟩ := Option.isSome_iff_exists.mp h
  rw [runChain_eq, feed_append, Option.bind_eq_some_iff] at houts
  obtain ⟨r, hr, hclose⟩ := houts
  obtain ⟨t', ht', hr⟩ := Option.bind_eq_some_iff.mp hr
  obtain ⟨s, hs, rfl⟩ := Option.map_eq_some_iff.mp hr
  have hsame : t = t' := While.unique_of_mono (f := fun n => Chain.feed n ops xs)
    (fun hnm h => deliver_mono (fun ops y t ht => execute_mono hnm ht) h) hfeed ht'
  subst hsame
  refine ⟨fuel', ?_⟩
  rw [runChain_eq, hs, Option.bind_some, Option.isSome_map]
  exact (Option.isSome_map ..).symm.trans (Option.isSome_iff_exists.mpr ⟨_, hclose⟩)

end Chain

/-! ## The threads of a job -/

namespace Thread

open SourcePhysicalOperator (Yields finish)

variable {avail : List (Event Record)} {rest : Chain U}

/-- The closes, when the root sends these elements at its own. -/
theorem ends_close {root root' : PhysicalOperator U} {xs : List StreamElement}
    (hroot : ∀ fuel, root.close fuel = some (root', xs.map .next)) (h : rest.Returns xs) :
    Ends avail ⟨root :: rest, [], .closing 0⟩ := by
  obtain ⟨fuel, h⟩ := h
  obtain ⟨outs, houts⟩ := Option.isSome_iff_exists.mp h
  rw [Chain.runChain_eq, Option.bind_eq_some_iff] at houts
  obtain ⟨s, hs, hclose⟩ := houts
  obtain ⟨t, ht, -⟩ := Option.map_eq_some_iff.mp hclose
  have hall : Chain.closeAll fuel (root :: rest) = some (root' :: t.1, s.2 ++ t.2) := by
    rw [Chain.closeAll_cons, hroot, Option.bind_some,
      show Chain.deliver (Chain.execute fuel none) rest (xs.map .next) = some s from hs,
      Option.bind_some, ht, Option.map_some]
  exact ends_closeFrom (Nat.zero_add _) hall

/-- What a pull does, when the root sends these elements. -/
theorem execute_of_feed {root root' : PhysicalOperator U} {m : Nat} {v : Option (Event Record)}
    {xs : List StreamElement}
    (hroot : root.execute m (!rest.isEmpty) v Pipeline.dummy = some (root', xs.map .next))
    {t : Chain U × List Output} (h : Chain.feed m rest xs = some t) :
    Chain.execute m v (root :: rest) Pipeline.dummy = some (root' :: t.1, t.2) := by
  rw [Chain.execute_cons, hroot, Option.bind_some,
    show Chain.deliver (Chain.execute m none) rest (xs.map .next) = some t from h, Option.map_some]

/-- A source ends, when the operators behind it return on what the first of its events make. -/
theorem ends_source {s : SourcePhysicalOperator U} {es : List (Event Record)}
    (hdone : s.done = false) (hes : Yields s.func s.captured es)
    (h : ∀ es', es' <+: es → rest.Returns (elements (finish s es'))) :
    Ends avail ⟨.source s :: rest, [], .pulling⟩ := by
  induction es generalizing s rest with
  | nil =>
    have hnil := h [] (List.prefix_refl _)
    have hexec := @execute_of_feed U rest (.source s) (.source s.execute.1) 0 none
      (elements s.execute.2) rfl (rest, []) (by
        rw [SourcePhysicalOperator.execute_of_none hes]
        rfl)
    refine .pull (by simp) rfl hexec ?_ (ends_close (fun _ => rfl) hnil)
    rw [phaseAfter, if_pos (by
      rw [SourcePhysicalOperator.execute_of_none hes]
      rfl)]
    refine @ends_close U _ rest (.source s.execute.1) (.source s.execute.1.close.1)
      (elements s.execute.1.close.2) (fun _ => rfl) ?_
    rw [SourcePhysicalOperator.execute_of_none hes]
    rw [← SourcePhysicalOperator.finish_congr s (s.func s.captured).2 true] at hnil
    exact hnil
  | cons e es ih =>
    obtain ⟨he, hes⟩ := hes
    have hexec := SourcePhysicalOperator.execute_of_some he
    have hfirst : ∀ es', es' <+: es → rest.Returns
        (elements s.execute.2 ++ elements (finish s.execute.1 es')) := by
      intro es' hes'
      have hmore := h (e :: es') (List.cons_prefix_cons.mpr ⟨rfl, hes'⟩)
      rw [finish, elements_append] at hmore
      rw [hexec, SourcePhysicalOperator.finish_congr]
      exact hmore
    obtain ⟨m, t, ht⟩ := (hfirst [] List.nil_prefix).feed
    have hpull := @execute_of_feed U rest (.source s) (.source s.execute.1) m none
      (elements s.execute.2) rfl t ht
    have hdone' : s.execute.1.done = false := by rw [hexec]; exact hdone
    refine .pull (by simp) rfl hpull (.calls ?_ t.2)
      (ends_close (fun _ => rfl) (h [] List.nil_prefix))
    rw [phaseAfter, if_neg (by simp [Chain.isDone, PhysicalOperator.isDone, hdone'])]
    refine ih hdone' ?_ fun es' hes' => (hfirst es' hes').rest ht
    rw [hexec, (SourcePhysicalOperator.forward_func s e).1]
    exact hes

/-- A channel source ends, when the operators behind it return on the events that it can read. -/
theorem ends_channelSource {good : Event Record → Prop} {c : ChannelId} (hne : rest ≠ [])
    (h : ∀ avail : List (Event Record), (∀ e ∈ avail, good e) → rest.Returns (avail.map .event))
    (havail : ∀ e ∈ avail, good e) :
    Ends avail ⟨.channelSource ⟨c, false⟩ :: rest, [], .pulling⟩ := by
  have hnil := h [] (List.forall_mem_nil _)
  have hstop : ∀ (avail : List (Event Record)) (done : Bool),
      Ends avail ⟨.channelSource ⟨c, done⟩ :: rest, [], .closing 0⟩ :=
    fun avail done => ends_close (fun _ => rfl) hnil
  have hnext : (!rest.isEmpty) = true := by simpa using hne
  induction avail generalizing rest with
  | nil =>
    have hexec := @execute_of_feed U rest (.channelSource ⟨c, false⟩) (.channelSource ⟨c, true⟩) 0
      none [] rfl (rest, []) rfl
    exact .readEnd rfl hexec (hstop [] true) (hstop [] false)
  | cons e avail ih =>
    obtain ⟨he, havail⟩ := List.forall_mem_cons.mp havail
    have hfirst : ∀ avail : List (Event Record), (∀ e ∈ avail, good e) →
        rest.Returns ([.event e] ++ avail.map .event) :=
      fun avail havail => h (e :: avail) (List.forall_mem_cons.mpr ⟨he, havail⟩)
    obtain ⟨m, t, ht⟩ := (hfirst [] (List.forall_mem_nil _)).feed
    have hpull := @execute_of_feed U rest (.channelSource ⟨c, false⟩) (.channelSource ⟨c, false⟩) m
      (some e) [.event e] (by rw [hnext]; rfl) t ht
    have hne' : t.1 ≠ [] := by
      rw [← List.length_pos_iff, Chain.deliver_length ht, List.length_pos_iff]
      exact hne
    have hmore : ∀ avail : List (Event Record), (∀ e ∈ avail, good e) →
        t.1.Returns (avail.map .event) := fun avail havail => (hfirst avail havail).rest ht
    have hnil' := hmore [] (List.forall_mem_nil _)
    exact .read rfl hpull (.calls (ih hne' hmore havail hnil'
      (fun avail done => ends_close (fun _ => rfl) hnil') (by simpa using hne')) t.2)
      (hstop (e :: avail) false)

end Thread

/-! ## The pipelines of a graph -/

/-- A chain that returns on these elements. Unless it is the last of the pipelines, it has written
events below the bound to its channel and closed it. -/
def Chain.Delivers (bound : Nat) (k : ChannelId) (last : Prop) (ops : Chain U)
    (xs : List StreamElement) : Prop :=
  ∃ m outs, (∀ fuel, m ≤ fuel → Chain.runChain fuel ops xs = some outs) ∧
    (last ∨ ∃ q, Writes k q outs ∧ ∀ e ∈ q, time e ≤ bound)

theorem Chain.Delivers.returns {bound : Nat} {k : ChannelId} {last : Prop} {ops : Chain U}
    {xs : List StreamElement} (h : Chain.Delivers bound k last ops xs) : ops.Returns xs := by
  obtain ⟨m, outs, houts, -⟩ := h
  exact ⟨m, by rw [houts m (Nat.le_refl m)]; rfl⟩

theorem Chain.Delivers.last {bound : Nat} {k : ChannelId} {last last' : Prop} {ops : Chain U}
    {xs : List StreamElement} (h : Chain.Delivers bound k last ops xs) (hlast : last → last') :
    Chain.Delivers bound k last' ops xs := by
  obtain ⟨m, outs, houts, hwrites⟩ := h
  exact ⟨m, outs, houts, hwrites.imp_left hlast⟩

open ExecutionGraph in
/-- The pipelines return: the first one on elements in time, the others on all events below the
bound. -/
theorem pipelines_deliver {transforms : List (LogicalImpl U)} (hsegments : Segmented transforms)
    {bound : Nat} (hwithin : ∀ impl ∈ transforms, impl.Within bound) (sink : SinkPhysicalOperator U)
    (root : PhysicalOperator U) (k : Nat) :
    let ps := pipelines k [root] (compileTransforms transforms ++ [.sink sink])
    (∃ rest, ps[0]? = some (root :: rest) ∧ rest ≠ [] ∧ ∀ xs, OnTime transforms xs →
      Below bound xs → Chain.Delivers bound k (1 = ps.length) rest xs) ∧
    ∀ j p, ps[j + 1]? = some p → ∃ rest, p = .channelSource ⟨k + j, false⟩ :: rest ∧ rest ≠ [] ∧
      ∀ avail : List (Event Record), (∀ e ∈ avail, time e ≤ bound) →
        Chain.Delivers bound (k + j + 1) (j + 2 = ps.length) rest (avail.map .event) := by
  induction hsegments generalizing root k with
  | @last pre hpre =>
    have helem := isElementwise_compileTransforms hpre
    have hone : pipelines k [root] (compileTransforms pre ++ [.sink sink]) =
        [root :: (compileTransforms pre ++ [.sink sink])] := pipelines_elementwise helem k [root] _
    intro ps
    have hps : ps = _ := hone
    rw [hps]
    have hrun : ∀ fuel xs, Chain.runChain fuel (compileTransforms pre ++ [.sink sink]) xs = some
        (((events ((compileTransforms pre).pass xs).2).map .sink).filter fun o => o.next?.isNone) := by
      intro fuel xs
      rw [Chain.runChain_pass helem, Chain.runChain_singleton fuel rfl, PhysicalOperator.stage_sink]
      rfl
    exact ⟨⟨_, rfl, by simp, fun xs _ _ => ⟨0, _, fun fuel _ => hrun fuel xs, .inl rfl⟩⟩,
      fun j p hp => by cases hp⟩
  | @window pre op post hpre hpost ih =>
    obtain ⟨hwithinPre, hwithinRest⟩ := List.forall_mem_append.mp hwithin
    obtain ⟨hop, hwithinPost⟩ := List.forall_mem_cons.mp hwithinRest
    have helem := isElementwise_compileTransforms hpre
    obtain ⟨⟨rest, hrest, hne, hfirst⟩, hnext⟩ := ih hwithinPost (.channelSource ⟨k, false⟩) (k + 1)
    intro ps
    have hps : ps = _ := pipelines_window hpre op post k root [.sink sink]
    rw [hps]
    refine ⟨⟨_, rfl, by simp, fun xs hon hbelow => ?_⟩, fun j p hp => ?_⟩
    · have hsurvivors := denotes_survivors hpre (events xs)
      have hearly := hsurvivors.bounded hwithinPre (below_iff.mp hbelow).1
      obtain ⟨n, outs, vs, hcuts, hwrites, hstage⟩ := op.stage_cuts hop.1 (hon.inTime_pass hpre) (by
        rw [below_iff, Chain.events_pass, Chain.watermarks_pass]
        exact ⟨hearly, (below_iff.mp hbelow).2⟩) k
      rw [Chain.events_pass] at hcuts
      refine ⟨n, outs, fun fuel hfuel => ?_, .inr ⟨_, hwrites, ?_⟩⟩
      · exact Chain.runChain_writes helem (op.compile_shape k) hwrites (hstage fuel hfuel)
      · exact (LogicalImpl.Means.window hcuts).bounded hop hearly
    · cases j with
      | zero =>
        obtain rfl : _ = p := Option.some.inj (hrest.symm.trans hp)
        refine ⟨rest, rfl, hne, fun avail havail => ?_⟩
        have hdelivers := hfirst _ (onTime_map_event post avail) (below_map_event havail)
        exact hdelivers.last fun hlast => by rw [List.length_cons, ← hlast]
      | succ j =>
        obtain ⟨rest, rfl, hne, hmore⟩ := hnext j p hp
        rw [Nat.add_assoc k 1 j, Nat.add_comm 1 j] at hmore ⊢
        refine ⟨rest, rfl, hne, fun avail havail => ?_⟩
        exact (hmore avail havail).last fun hlast => by rw [List.length_cons, ← hlast]

/-! ## The runs of a job -/

/-- What a thread has written that has made the calls of its chain. -/
theorem Chain.Delivers.ran {bound : Nat} {k : ChannelId} {last : Prop} {ops : Chain U}
    {xs : List StreamElement} (h : Chain.Delivers bound k last ops xs) (hlast : ¬ last)
    {as : List Action} (hran : Thread.Ran ops xs as) :
    (∀ e ∈ written k (as.filterMap call?), time e ≤ bound) ∧
      .closeChannel k ∈ as.filterMap call? := by
  obtain ⟨m, outs, houts, hwrites⟩ := h
  obtain ⟨m', hran⟩ := hran
  obtain ⟨q, hwrites, hq⟩ := hwrites.resolve_left hlast
  have hsame : outs = as.filterMap call? := Option.some.inj
    ((houts (max m m') (Nat.le_max_left m m')).symm.trans (hran _ (Nat.le_max_right m m')))
  subst hsame
  have hcontent := congrFun (hwrites.perform (fun _ => {}) rfl) k
  rw [foldl_perform_content, Function.update_self] at hcontent
  refine ⟨fun e he => hq e ?_, by simpa using congrArg InputChannel.closed hcontent⟩
  rw [← show written k (as.filterMap call?) = q from congrArg InputChannel.queue hcontent]
  exact he

/-- The call that closes a channel is a step that closes it. -/
theorem Thread.close_of_call? {th th' : Thread U} {as : List Action}
    (h : Steps Thread.StopStep th as th') {a : Action} (ha : a ∈ as) {ch : ChannelId}
    (hcall : call? a = some (.closeChannel ch)) : a = .close ch := by
  have hclose : ∀ a ∈ as, call? a = some (.closeChannel ch) → a = .close ch := by
    refine (Steps.inv (I := fun _ => True) (fun p a q _ hstep => ⟨trivial, fun hcall => ?_⟩)
      trivial h).2
    cases hstep with
    | stop ops => cases hcall
    | step hstep =>
      cases hstep with
      | call ops o =>
        rw [call?_action] at hcall
        rw [Option.some.inj hcall]
        rfl
      | _ => cases hcall
  exact hclose a ha hcall

/-- The pipelines of a job with a source that yields these events. -/
structure Job.Delivers (bound : Nat) (source : SourcePhysicalOperator U) (es : List (Event Record))
    (pipelines : List (Chain U)) : Prop where
  pieces : Job.Pieces pipelines
  done : source.done = false
  yields : SourcePhysicalOperator.Yields source.func source.captured es
  first : ∃ rest, pipelines[0]? = some (.source source :: rest) ∧ ∀ es', es' <+: es →
    Chain.Delivers bound 0 (1 = pipelines.length) rest
      (elements (SourcePhysicalOperator.finish source es'))
  next : ∀ j p, pipelines[j + 1]? = some p → ∃ rest, p = .channelSource ⟨j, false⟩ :: rest ∧
    rest ≠ [] ∧ ∀ avail : List (Event Record), (∀ e ∈ avail, time e ≤ bound) →
      Chain.Delivers bound (j + 1) (j + 2 = pipelines.length) rest (avail.map .event)

namespace Job.Delivers

variable {bound : Nat} {source : SourcePhysicalOperator U} {es : List (Event Record)}
  {pipelines : List (Chain U)} {s : Job U} {t : List (Nat × Action)}

/-- The pipelines that have finished have closed their channels, and written events below the
bound. -/
theorem finished (h : Delivers bound source es pipelines)
    (ht : Steps StopStep (start pipelines) t s) {i : Nat} (hi : i + 1 < pipelines.length)
    (hbefore : ∀ j ≤ i, (s.threads j).Finished) :
    (∀ e ∈ writes i (localActs i t), time e ≤ bound) ∧ (s.channels i).closed = true := by
  have hlocal : ∀ {last : Prop} {ops : Chain U} {xs : List StreamElement} {k : Nat},
      Chain.Delivers bound k last ops xs → ¬ last → Thread.Ran ops xs (localActs k t) →
      (∀ e ∈ writes k (localActs k t), time e ≤ bound) ∧ (s.channels k).closed = true := by
    intro last ops xs k hdelivers hlast hran
    obtain ⟨hbelow, hclose⟩ := hdelivers.ran hlast hran
    refine ⟨by rwa [stopWrites_eq_written ht rfl k k], ?_⟩
    obtain ⟨a, ha, hcall⟩ := List.mem_filterMap.mp hclose
    have hsteps := (stopSteps_spec rfl ht).2 k
    obtain rfl := Thread.close_of_call? hsteps ha hcall
    exact ((stopSteps_spec rfl ht).1 k).closed.mpr
      (List.mem_map.mpr ⟨_, mem_localActs.mp ha, rfl⟩)
  induction i with
  | zero =>
    obtain ⟨rest, hrest, hfirst⟩ := h.first
    obtain ⟨es', hinitial, hran⟩ := Thread.ran_source (hbefore 0 (Nat.le_refl 0)) h.done h.yields
      (stopSteps_local ht hrest)
    exact hlocal (hfirst es' hinitial) (by omega) hran
  | succ i ih =>
    have hwritten := (ih (by omega) fun j hj => hbefore j (by omega)).1
    obtain ⟨rest, hrest, hne, hnext⟩ := h.next i _ (List.getElem?_eq_getElem (by omega))
    have hread : ∀ e ∈ reads i (localActs (i + 1) t), time e ≤ bound := fun e he =>
      hwritten e (by
        rw [← h.pieces.stopReads_append_queue ht i]
        exact List.mem_append_left _ he)
    have hp : pipelines[i + 1]? = some (.channelSource ⟨i, false⟩ :: rest) := by
      rw [List.getElem?_eq_getElem (by omega), hrest]
    have hran := Thread.ran_channelSource (hbefore (i + 1) (Nat.le_refl _)) hne
      (stopSteps_local ht hp)
    have hlast : ¬ i + 2 = pipelines.length := by omega
    exact hlocal (hnext _ hread) hlast hran

/-- The next pipeline waits for nobody, and comes to its end. -/
theorem ends (h : Delivers bound source es pipelines) (ht : Steps StopStep (start pipelines) t s)
    {i : Nat} (hi : i < pipelines.length) (hbefore : ∀ j < i, (s.threads j).Finished) :
    ∃ avail, (s.threads i).Ends avail ∧ ∀ ch, Chain.inputChannel (s.threads i).ops = some ch →
      s.channels ch = ⟨avail, true⟩ := by
  obtain ⟨ss, hpiece, hfits⟩ := h.pieces.fits i
  have hlen : ∀ ch, ss.head?.bind Shape.inputChannel = some ch → 2 ≤ ss.length :=
    fun ch hch => (hpiece.input ch hch).2
  have hsteps := (stopSteps_spec rfl ht).2 i
  have hshapes := (Steps.invariant (I := Thread.Fits ss)
    (fun _ _ _ hp hstep => (hp.stopStep hpiece.last hstep).1) hfits hsteps).shapes
  have hinput : ∀ ch, Chain.inputChannel (s.threads i).ops = some ch → i = ch + 1 := by
    intro ch hch
    rw [Chain.inputChannel_shapes, hshapes] at hch
    exact (hpiece.input ch hch).1
  have hstart : ∀ {p : Chain U}, pipelines[i]? = some p →
      (start pipelines).threads i = ⟨p, [], .pulling⟩ := by
    intro p hp
    show (pipelines[i]?).elim _ Thread.start = _
    rw [hp]
    rfl
  cases i with
  | zero =>
    obtain ⟨rest, hrest, hfirst⟩ := h.first
    refine ⟨[], @Thread.Ends.steps U _ _ (fun _ => True) ss hpiece.last hlen hfits ?_ _ hsteps
      (fun _ _ _ => trivial) [] (List.forall_mem_nil _), fun ch hch => absurd (hinput ch hch) (by simp)⟩
    rw [hstart hrest]
    exact fun avail _ => Thread.ends_source h.done h.yields fun es' hes' => (hfirst es' hes').returns
  | succ i =>
    obtain ⟨hwritten, hclosed⟩ := h.finished ht hi fun j hj => hbefore j (by omega)
    have hqueue := h.pieces.stopReads_append_queue ht i
    obtain ⟨rest, hrest, hne, hnext⟩ := h.next i _ (List.getElem?_eq_getElem hi)
    have hp : pipelines[i + 1]? = some (.channelSource ⟨i, false⟩ :: rest) := by
      rw [List.getElem?_eq_getElem hi, hrest]
    refine ⟨(s.channels i).queue, @Thread.Ends.steps U _ _ (fun e => time e ≤ bound) ss hpiece.last
      hlen hfits ?_ _ hsteps (fun ch e he => hwritten e ?_) _ (fun e he => hwritten e ?_),
      fun ch hch => ?_⟩
    · rw [hstart hp]
      exact fun avail havail => Thread.ends_channelSource hne (fun avail havail =>
        (hnext avail havail).returns) havail
    · -- all that the thread reads it reads from the channel before it
      obtain ⟨ss', hpiece', hallows⟩ := h.pieces.stopAllows ht (mem_localActs.mp he)
      obtain rfl : i = ch := Nat.succ.inj (hpiece'.input ch hallows).1
      rw [← hqueue]
      exact List.mem_append_left _ (List.mem_filterMap.mpr ⟨_, he, by simp [Act.taken]⟩)
    · rw [← hqueue]
      exact List.mem_append_right _ he
    · obtain rfl : i = ch := Nat.succ.inj (hinput ch hch)
      cases hch' : s.channels i with
      | mk queue closed =>
        rw [hch'] at hclosed
        exact congrArg (InputChannel.mk queue) hclosed

end Job.Delivers

open ExecutionGraph in
/-- The pipelines of a linear graph, whose source has bounded disorder. -/
theorem DataflowGraph.IsLinear.delivers {g : DataflowGraph U} {source : SourceLogicalOperator U}
    {transforms : List (LogicalImpl U)} {sink : SinkLogicalOperator U}
    (hg : g.IsLinear source transforms sink) {es : List (Event Record)}
    (hes : SourcePhysicalOperator.Yields source.func source.captured es)
    (hdisorder : BoundedDisorder source.allowedLateness es) {bound : Nat}
    (hbound : maxTime es ≤ bound) (hwithin : ∀ impl ∈ transforms, impl.Within bound)
    (hkeeps : ∀ impl ∈ transforms.takeWhile (fun impl => !impl.isWindow), impl.KeepsTime) :
    Job.Delivers bound (.create source.func source.captured source.allowedLateness
      source.watermarkInterval) es
      (pipelines 0 [source.compile] (compileTransforms transforms ++ [sink.compile])) := by
  obtain ⟨⟨rest, hrest, -, hfirst⟩, hnext⟩ := pipelines_deliver
    (segmented_of_isTransform hg.transforms) hwithin ⟨sink.func, sink.captured⟩ source.compile 0
  refine ⟨hg.pieces, rfl, hes, ⟨rest, hrest, fun es' hinitial => ?_⟩, fun j p hp => ?_⟩
  · rw [SourcePhysicalOperator.finish_eq_schedule (SourcePhysicalOperator.create_tracks _ _ _ _)]
    exact hfirst _ (.inr ⟨inTime_schedule (hdisorder.initial hinitial), hkeeps⟩)
      (below_schedule ((SourcePhysicalOperator.maxTime_mono hinitial).trans hbound))
  · have hj := hnext j p hp
    rw [Nat.zero_add] at hj
    exact hj

end Xtream
