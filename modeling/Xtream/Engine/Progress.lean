import Xtream.Engine.Schedules
import Xtream.Lib.KahnProgress

/-!
# Every schedule of a job ends

The threads of a job wait for each other only at an empty channel that is still open. When the
pipelines of a job come to their end one after the other, they come to it under every schedule, in
the same number of steps.

* `Job.exists_step`: a step of a thread is a step of the job, when the channel returns what it reads;
* `Job.Pieces.ends`: every schedule of the pipelines;
* `job_ends_iff`: when a linear graph's job ends.
-/

namespace Xtream

open KahnNetwork

namespace Job

variable {U : Type} {pipelines : List (Chain U)} {s : Job U} {t : List (Nat × Action)}

/-- What a channel returns, when it holds what the steps have left. -/
theorem read_of_returns {as : List Action} {ch : ChannelId} {c : InputChannel}
    {v : Option (Event Record)} (h : Holds as ch c.queue c.closed) (hret : Returns as ch v) :
    ∃ c', c.read = some (v, c') := by
  obtain ⟨queue, closed⟩ := c
  cases v with
  | some e =>
    have hget : (reads ch as ++ queue)[(reads ch as).length]? = some e := by
      rw [h.queue]
      exact hret
    rw [List.getElem?_append_right (Nat.le_refl _), Nat.sub_self] at hget
    cases queue with
    | nil => cases hget
    | cons e' queue =>
      cases hget
      exact ⟨_, rfl⟩
  | none =>
    obtain ⟨hclose, hlen⟩ := hret
    have hqueue : queue = [] := by
      have hsum := congrArg List.length h.queue
      rw [List.length_append, ← hlen] at hsum
      exact List.length_eq_zero_iff.mp (by simpa using hsum)
    have hclosed : closed = true := h.closed.mpr hclose
    exact ⟨⟨queue, closed⟩, by simp [InputChannel.read, hqueue, hclosed]⟩

/-- A step of a thread is a step of the job, when the channel returns what it reads. -/
theorem exists_step {as : List Action} {i : Nat} {a : Action} {th : Thread U}
    (hholds : ∀ ch, Holds as ch (s.channels ch).queue (s.channels ch).closed)
    (hstep : Thread.Step (s.threads i) a th) (hret : ∀ ch v, a = .read ch v → Returns as ch v) :
    ∃ s', Step s (i, a) s' := by
  have heffect : ∃ chs, Effect s.channels a chs := by
    cases a with
    | read ch v =>
      obtain ⟨c, hc⟩ := read_of_returns (hholds ch) (hret ch v rfl)
      exact ⟨_, .read hc⟩
    | write ch e => exact ⟨_, .write _ ch e⟩
    | close ch => exact ⟨_, .close _ ch⟩
    | out o => exact ⟨_, .out _ o⟩
  obtain ⟨chs, hchs⟩ := heffect
  exact ⟨_, .thread hstep hchs⟩

/-- Every schedule ends, and ends in the same number of steps, when the pipelines come to their
end one after the other. -/
theorem Pieces.ends (h : Pieces pipelines) {fuel : Nat} {outs : List Output}
    (hrun : ExecutionGraph.runInOrder fuel pipelines (fun _ => {}) = some outs) :
    ∃ n, ∀ t s, Steps Step (start pipelines) t s → t.length ≤ n ∧ (s.Finished ↔ t.length = n) ∧
      (s.Finished ∨ ∃ x s', Step s x s') := by
  obtain ⟨s₁, ⟨u, -, hu⟩, hfin⟩ := exists_run hrun
  obtain ⟨hcons_u, -, hlocal_u⟩ := steps_spec rfl hu
  have hcomplete : ∀ i a th, ¬ Thread.Step (s₁.threads i) a th := fun i => (hfin i).no_step
  have hlive : ∀ t s, Steps Step (start pipelines) t s →
      t.length ≤ u.length ∧ (s.Finished ∨ ∃ x s', Step s x s') := by
    intro t s ht
    obtain ⟨hcons_t, hholds, hlocal_t⟩ := steps_spec rfl ht
    obtain ⟨hlen, hend⟩ := bounded_and_live Thread.deterministic hcons_u (h.wired hu) (h.sealed hu)
      hlocal_u hcomplete hcons_t hlocal_t
    refine ⟨hlen, ?_⟩
    rcases hend with hend | ⟨i, a, th, hstep, hret⟩
    · exact Or.inl fun i => hend i ▸ hfin i
    · obtain ⟨s', hs'⟩ := exists_step hholds hstep hret
      exact Or.inr ⟨_, s', hs'⟩
  refine ⟨u.length, fun t s ht => ⟨(hlive t s ht).1, ⟨fun hs => ?_, fun hlen => ?_⟩,
    (hlive t s ht).2⟩⟩
  · obtain ⟨hcons_t, -, hlocal_t⟩ := steps_spec rfl ht
    have heq := local_eq Thread.deterministic hcons_u (h.wired hu) (h.sealed hu) hlocal_u hcomplete
      hcons_t hlocal_t fun i => (hs i).no_step
    exact Nat.le_antisymm (length_le fun i => heq i ▸ List.prefix_refl _)
      (length_le fun i => heq i ▸ List.prefix_refl _)
  · -- a run of this length cannot go on
    refine (hlive t s ht).2.resolve_right fun ⟨x, s', hs'⟩ => ?_
    have hlonger := (hlive (t ++ [x]) s' (ht.append (.single hs'))).1
    simp [hlen] at hlonger

/-- A run that can always go on is finished or has any number of steps. -/
theorem exists_run_length (hlive : ∀ t s, Steps Step (start pipelines) t s →
    s.Finished ∨ ∃ x s', Step s x s') (n : Nat) :
    ∃ t s, Steps Step (start pipelines) t s ∧ (s.Finished ∨ t.length = n) := by
  induction n with
  | zero => exact ⟨[], _, .nil _, Or.inr rfl⟩
  | succ n ih =>
    obtain ⟨t, s, ht, hs | hlen⟩ := ih
    · exact ⟨t, s, ht, Or.inl hs⟩
    · rcases hlive t s ht with hs | ⟨x, s', hs'⟩
      · exact ⟨t, s, ht, Or.inl hs⟩
      · exact ⟨t ++ [x], s', ht.append (.single hs'), Or.inr (by simp [hlen])⟩

end Job

/-- **The job of a linear graph ends under every schedule** iff its pipelines come to their end one
after the other. Then there is a number of steps that no schedule exceeds, all pipelines have
finished exactly when it is reached, and until then some thread can take a step. -/
theorem job_ends_iff {U : Type} {g : DataflowGraph U} {source : SourceLogicalOperator U}
    {transforms : List (LogicalImpl U)} {sink : SinkLogicalOperator U}
    (hg : g.IsLinear source transforms sink) {keys : List OperatorId}
    (hkeys : keys.Perm g.inDegreeKeys) :
    ∃ n pipelines, (∀ fuel, n ≤ fuel → ExecutionGraph.build fuel keys g = some pipelines) ∧
      ((∃ fuel outs, ExecutionGraph.runInOrder fuel pipelines (fun _ => {}) = some outs) ↔
        ∃ steps, ∀ t s, Steps Job.Step (Job.start pipelines) t s →
          t.length ≤ steps ∧ (s.Finished ↔ t.length = steps) ∧
            (s.Finished ∨ ∃ x s', Job.Step s x s')) := by
  have hpieces := hg.pieces
  refine ⟨transforms.length + 2, _, fun fuel hfuel => hg.build_eq hkeys hfuel, ?_, ?_⟩
  · rintro ⟨fuel, outs, hrun⟩
    exact hpieces.ends hrun
  · rintro ⟨steps, hsteps⟩
    obtain ⟨t, s, ht, hend⟩ :=
      Job.exists_run_length (fun t s ht => (hsteps t s ht).2.2) (steps + 1)
    have hs : s.Finished := hend.resolve_right fun hlen => by
      have := (hsteps t s ht).1
      omega
    obtain ⟨m, outs, hrun⟩ := hpieces.exists_inOrder ht hs
    exact ⟨m, outs, hrun m (Nat.le_refl m)⟩

/-- No schedule of this job is stuck before its end. -/
theorem job_ends_iff_pairs : ∃ pipelines steps, ExecutionGraph.build 3 pairs.inDegreeKeys pairs =
    some pipelines ∧ ∀ t s, Steps Job.Step (Job.start pipelines) t s →
      t.length ≤ steps ∧ (s.Finished ∨ ∃ x s', Job.Step s x s') := by
  obtain ⟨n, pipelines, hbuild, h⟩ :=
    job_ends_iff pairs_isLinear (List.Perm.refl pairs.inDegreeKeys)
  have hbuild' := hbuild (max n 3) (Nat.le_max_left n 3)
  rw [pairs_isLinear.build_eq (List.Perm.refl _) (Nat.le_max_right n 3)] at hbuild'
  cases hbuild'
  obtain ⟨steps, hsteps⟩ := h.mp ⟨5, [.write 0 (eventAt 1), .write 0 (eventAt 3), .closeChannel 0,
    .sink (eventAt 1), .sink (eventAt 3)], by decide +kernel⟩
  exact ⟨_, steps, pairs_isLinear.build_eq (List.Perm.refl _) (Nat.le_refl 3),
    fun t s ht => ⟨(hsteps t s ht).1, (hsteps t s ht).2.2⟩⟩

end Xtream
