import Xtream.Lib.KahnNetwork
import Xtream.Runtime.InputChannel

/-!
# The end of a channel

Threads call `write`, `close`, `read` and `is_done` in any order; each call is one atomic step. The
stream on the channel ends when the channel is closed and its queue is empty: then `is_done` is true
and `read` returns nothing.

* `Step.of_isDone`: at the end, only a `write` changes the channel;
* `endIsFinal_iff`: the end is final iff nothing is written after it.
-/

namespace Xtream

open KahnNetwork (Steps)

/-- A call on a channel, with what it returns. -/
inductive ChannelCall
  | write (e : Event Record)
  | close
  | read (v : Option (Event Record))
  | isDone (done : Bool)
  deriving DecidableEq, Repr

namespace InputChannel

/-- A thread makes a call. There is no step for a `read` that waits. -/
inductive Step {T : Type} : InputChannel → T × ChannelCall → InputChannel → Prop
  | write (c : InputChannel) (t : T) (e : Event Record) : Step c (t, .write e) (c.write e)
  | close (c : InputChannel) (t : T) : Step c (t, .close) c.close
  | read {c c' : InputChannel} (t : T) {v : Option (Event Record)} (h : c.read = some (v, c')) :
      Step c (t, .read v) c'
  | isDone (c : InputChannel) (t : T) : Step c (t, .isDone c.isDone) c

variable {T : Type} {c c' c'' : InputChannel}

theorem isDone_iff : c.isDone = true ↔ c.closed = true ∧ c.queue = [] := by
  simp [isDone]

theorem write_not_isDone (c : InputChannel) (e : Event Record) : (c.write e).isDone = false := by
  simp [isDone, write]

theorem read_of_isDone (h : c.isDone = true) : c.read = some (none, c) := by
  obtain ⟨hclosed, hqueue⟩ := isDone_iff.mp h
  unfold read
  simp [hqueue, hclosed]

/-- A read that returns nothing finds the end of the stream. -/
theorem isDone_of_read (h : c.read = some (none, c')) : c.isDone = true := by
  obtain ⟨hclosed, hqueue, -⟩ := read_none h
  exact isDone_iff.mpr ⟨hclosed, hqueue⟩

/-- A call with its result leads to one state. -/
theorem Step.unique {a : T × ChannelCall} (h : Step c a c') (h' : Step c a c'') : c' = c'' := by
  cases h with
  | write t e =>
    cases h'
    rfl
  | close t =>
    cases h'
    rfl
  | read t h =>
    cases h' with
    | read t h' =>
      rw [h] at h'
      cases h'
      rfl
  | isDone t =>
    cases h'
    rfl

theorem steps_unique {as : List (T × ChannelCall)} (h : Steps Step c as c')
    (h' : Steps Step c as c'') : c' = c'' := by
  induction h with
  | nil c =>
    cases h'
    rfl
  | cons hstep _ ih =>
    cases h' with
    | cons hstep' hrest' =>
      cases hstep.unique hstep'
      exact ih hrest'

/-- At the end of the stream a call that is no `write` changes nothing and reads nothing. -/
theorem Step.of_isDone {a : T × ChannelCall} (h : Step c a c') (hdone : c.isDone = true)
    (hwrite : ∀ e, a.2 ≠ .write e) : c' = c ∧ ∀ e, a.2 ≠ .read (some e) := by
  cases h with
  | write t e => exact absurd rfl (hwrite e)
  | close t =>
    obtain ⟨queue, closed⟩ := c
    cases (isDone_iff.mp hdone).1
    exact ⟨rfl, fun e he => by cases he⟩
  | read t h =>
    rw [read_of_isDone hdone] at h
    cases h
    exact ⟨rfl, fun e he => by cases he⟩
  | isDone t => exact ⟨rfl, fun e he => by cases he⟩

/-- A `write` of the run from `c` finds the channel at the end of the stream. -/
def LateWrite (c : InputChannel) (as : List (T × ChannelCall)) : Prop :=
  ∃ (before after : List (T × ChannelCall)) (t : T) (e : Event Record) (c₁ : InputChannel),
    as = before ++ (t, .write e) :: after ∧ Steps Step c before c₁ ∧ c₁.isDone = true

theorem LateWrite.cons {a : T × ChannelCall} {as : List (T × ChannelCall)} (h : Step c a c')
    (hlate : LateWrite c' as) : LateWrite c (a :: as) := by
  obtain ⟨before, after, t, e, c₁, rfl, hsteps, hdone⟩ := hlate
  exact ⟨a :: before, after, t, e, c₁, rfl, .cons h hsteps, hdone⟩

theorem LateWrite.append {before as : List (T × ChannelCall)} (h : Steps Step c before c')
    (hlate : LateWrite c' as) : LateWrite c (before ++ as) := by
  induction h with
  | nil c => exact hlate
  | cons hstep _ ih => exact .cons hstep (ih hlate)

theorem LateWrite.mono {before as : List (T × ChannelCall)} (hlate : LateWrite c before) :
    LateWrite c (before ++ as) := by
  obtain ⟨b, after, t, e, c₁, rfl, hsteps, hdone⟩ := hlate
  exact ⟨b, after ++ as, t, e, c₁, by rw [List.append_assoc, List.cons_append], hsteps, hdone⟩

/-- From the end of the stream on, if nothing is written. -/
theorem steps_of_isDone {as : List (T × ChannelCall)} (h : Steps Step c as c')
    (hdone : c.isDone = true) (hlate : ¬ LateWrite c as) :
    c' = c ∧ ∀ t e, (t, ChannelCall.read (some e)) ∉ as := by
  induction h with
  | nil c => exact ⟨rfl, fun t e => List.not_mem_nil⟩
  | @cons c c₁ c' a as hstep _ ih =>
    have hwrite : ∀ e, a.2 ≠ .write e := fun e ha =>
      hlate ⟨[], as, a.1, e, c, by rw [← ha]; rfl, .nil c, hdone⟩
    obtain ⟨rfl, hread⟩ := hstep.of_isDone hdone hwrite
    obtain ⟨rfl, hreads⟩ := ih hdone fun hl => hlate (.cons hstep hl)
    refine ⟨rfl, fun t e hmem => ?_⟩
    rcases List.mem_cons.mp hmem with rfl | hmem
    · exact hread e rfl
    · exact hreads t e hmem

/-- Once `is_done` has been true or a `read` has returned nothing, `is_done` stays true and no
`read` returns an event. -/
def EndIsFinal (as : List (T × ChannelCall)) : Prop :=
  ∀ (before after : List (T × ChannelCall)) (c₁ : InputChannel), as = before ++ after →
    Steps Step {} before c₁ → (c₁.isDone = true ∨ ∃ t, (t, .read none) ∈ before) →
    (∀ (mid rest : List (T × ChannelCall)) (c₂ : InputChannel), after = mid ++ rest →
      Steps Step c₁ mid c₂ → c₂.isDone = true) ∧
    ∀ t e, (t, .read (some e)) ∉ after

/-- A `read` that has returned nothing found the end, which lasts if nothing is written after it. -/
theorem isDone_of_read_mem {before : List (T × ChannelCall)} {c₁ : InputChannel} {t : T}
    (h : Steps Step c before c₁) (hlate : ¬ LateWrite c before) (hread : (t, .read none) ∈ before) :
    c₁.isDone = true := by
  obtain ⟨b₁, b₂, rfl⟩ := List.append_of_mem hread
  obtain ⟨c₀, hb₁, hb₂⟩ := Steps.append_iff.mp h
  obtain ⟨c₀', hstep, hrest⟩ := Steps.cons_iff.mp hb₂
  cases hstep with
  | read t hr =>
    have hdone := isDone_of_read hr
    obtain ⟨-, -, rfl⟩ := read_none hr
    rw [(steps_of_isDone hrest hdone fun hl =>
      hlate (.append hb₁ (.cons (.read t hr) hl))).1]
    exact hdone

/-- **The end of the stream is final** in a run iff no `write` of the run finds the channel closed
and its queue empty. -/
theorem endIsFinal_iff {as : List (T × ChannelCall)} {c : InputChannel}
    (h : Steps Step {} as c) : EndIsFinal as ↔ ¬ LateWrite {} as := by
  constructor
  · rintro hfinal ⟨before, after, t, e, c₁, rfl, hsteps, hdone⟩
    have hstays := (hfinal before _ c₁ rfl hsteps (Or.inl hdone)).1 [(t, .write e)] after
      (c₁.write e) rfl (.single (.write c₁ t e))
    rw [write_not_isDone] at hstays
    cases hstays
  · rintro hlate before after c₁ rfl hsteps hend
    obtain ⟨c₁', hsteps', hafter⟩ := Steps.append_iff.mp h
    cases steps_unique hsteps hsteps'
    have hdone : c₁.isDone = true := by
      rcases hend with hdone | ⟨t, hread⟩
      · exact hdone
      · exact isDone_of_read_mem hsteps (fun hl => hlate hl.mono) hread
    refine ⟨?_, (steps_of_isDone hafter hdone fun hl => hlate (.append hsteps hl)).2⟩
    rintro mid rest c₂ rfl hmid
    rw [(steps_of_isDone hmid hdone fun hl => hlate (.append hsteps hl.mono)).1]
    exact hdone

/-- One thread writes an event and closes the channel, another reads the event and the end. -/
theorem endIsFinal_two : EndIsFinal [(0, ChannelCall.write (eventAt 1)), (0, .close),
    (1, .read (some (eventAt 1))), (1, .read none)] := by
  refine (endIsFinal_iff (c := ⟨[], true⟩) (.cons (.write _ _ _) (.cons (.close _ _)
    (.cons (.read _ rfl) (.single (.read _ rfl)))))).mpr ?_
  rintro ⟨before, after, t, e, c₁, heq, hsteps, hdone⟩
  -- the only `write` is the first call, and finds the channel open
  cases hsteps with
  | nil => cases hdone
  | cons _ _ =>
    simp only [List.cons_append, List.cons.injEq] at heq
    have hmem : (t, ChannelCall.write e) ∈
        [(0, .close), (1, .read (some (eventAt 1))), (1, .read none)] := by
      rw [heq.2]
      exact List.mem_append_right _ List.mem_cons_self
    simp at hmem

/-- A thread closes the channel, another one reads the end, the first one writes: the event is
accepted, and read after the end. -/
theorem read_after_end : ∃ (as : List (Nat × ChannelCall)) (c : InputChannel),
    Steps Step {} as c ∧ ¬ EndIsFinal as := by
  refine ⟨[(0, .close), (1, .read none), (0, .write (eventAt 1)), (1, .read (some (eventAt 1)))],
    ⟨[], true⟩, ?_, fun hfinal => ?_⟩
  · exact .cons (.close _ _) (.cons (.read _ rfl) (.cons (.write _ _ _) (.single (.read _ rfl))))
  · refine (hfinal [(0, .close), (1, .read none)] _ ⟨[], true⟩ rfl
      (.cons (.close _ _) (.single (.read _ rfl))) (Or.inl rfl)).2 1 (eventAt 1) ?_
    simp

end InputChannel

end Xtream
