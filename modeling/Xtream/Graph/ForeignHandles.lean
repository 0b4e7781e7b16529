import Xtream.Graph.Faults

/-!
# Joins with a handle of another builder

A join reads only the id of the other handle, and every builder gives out the ids 1, 2, … . A handle
of another builder is rejected where its id is unknown or is that of the join itself, and connects
the operator with the same id otherwise.

* `grown_wellFormed_iff`: when an operator behind handles leaves a well-formed builder;
* `foreign_rejected_iff`: when `validate` rejects a join.
-/

namespace Xtream

open KahnNetwork (Steps)

variable {U : Type}

namespace DataflowGraphBuilder

/-- The builder can take an operator behind the handles: they name operators that the new one does
not lead to, and nothing else is wrong that the new operator does not mend. -/
structure Takes (b : DataflowGraphBuilder U) (hs : List StreamHandle) : Prop where
  handles : ∀ h ∈ hs, h.id ∈ b.ids
  sources : ∀ e ∈ b.edges, e.source ∈ b.ids ∨ e.source = ⟨b.counter⟩
  acyclic : ∀ id, ¬ Relation.TransGen (HasEdge b.edges) id id
  apart : ∀ h ∈ hs, ¬ Relation.TransGen (HasEdge b.edges) ⟨b.counter⟩ h.id

theorem grown_ids (b : DataflowGraphBuilder U) (name : String) (op : LogicalImpl U)
    (hs : List StreamHandle) : (b.grown name op hs).ids = b.ids ++ [⟨b.counter⟩] := List.map_append

/-- The new edges come from the handles. -/
theorem edgesTo_sources (b : DataflowGraphBuilder U) {target : OperatorId} {hs : List StreamHandle}
    (p : OperatorId → Prop) : (∀ e ∈ b.edgesTo target hs, p e.source) ↔ ∀ h ∈ hs, p h.id := by
  unfold edgesTo
  rw [List.forall_mem_map]
  constructor
  · intro hall h hh
    obtain ⟨i, hi, rfl⟩ := List.mem_iff_getElem.mp hh
    exact hall (hs[i], i) (List.mk_mem_zipIdx_iff_getElem?.mpr (List.getElem?_eq_getElem hi))
  · rintro hall ⟨h, i⟩ hh
    exact hall h (List.mem_iff_getElem?.mpr ⟨i, List.mk_mem_zipIdx_iff_getElem?.mp hh⟩)

end DataflowGraphBuilder

/-- When a new operator leaves a well-formed builder. -/
theorem Built.grown_wellFormed_iff {b : DataflowGraphBuilder U} (h : Built b) {name : String}
    {op : LogicalImpl U} {hs : List StreamHandle} (hgrown : Built (b.grown name op hs)) :
    (b.grown name op hs).WellFormed ↔ b.Takes hs := by
  have hacyclic := @acyclic_append_iff b.edges (b.edgesTo ⟨b.counter⟩ hs) ⟨b.counter⟩
    fun e he => (DataflowGraphBuilder.mem_edgesTo he).1
  rw [b.edgesTo_sources fun id => ¬ Relation.ReflTransGen (HasEdge b.edges) ⟨b.counter⟩ id]
    at hacyclic
  have hmem : ∀ id, id ∈ (b.grown name op hs).ids ↔ id ∈ b.ids ∨ id = ⟨b.counter⟩ := by
    intro id
    rw [b.grown_ids, List.mem_append, List.mem_singleton]
  constructor
  · rintro ⟨-, hknown, hcycles⟩
    obtain ⟨hold, hpaths⟩ := hacyclic.mp hcycles
    have hsources := List.forall_mem_append.mp fun e he => (hmem _).mp (hknown e he).1
    have hhandles := (b.edgesTo_sources fun id => id ∈ b.ids ∨ id = ⟨b.counter⟩).mp hsources.2
    refine ⟨fun h' hh' => ?_, hsources.1, hold, fun h' hh' hpath => ?_⟩
    · -- a handle with the id of the new operator makes a cycle
      exact (hhandles h' hh').resolve_right fun heq => hpaths h' hh' (heq ▸ .refl)
    · exact hpaths h' hh' hpath.to_reflTransGen
  · intro htakes
    refine ⟨by simp [DataflowGraphBuilder.grown], fun e he => ⟨?_, hgrown.targets e he⟩,
      hacyclic.mpr ⟨htakes.acyclic, fun h' hh' hpath => ?_⟩⟩
    · rw [hmem]
      rcases List.mem_append.mp he with he | he
      · exact htakes.sources e he
      · exact Or.inl ((b.edgesTo_sources _).mpr htakes.handles e he)
    · rcases Relation.reflTransGen_iff_eq_or_transGen.mp hpath with heq | hpath
      · exact h.counter_not_mem (heq ▸ htakes.handles h' hh')
      · exact htakes.apart h' hh' hpath

/-- A well-formed builder refuses unknown handles only. -/
theorem Built.takes_iff {b : DataflowGraphBuilder U} (h : Built b) (hwell : b.WellFormed)
    {hs : List StreamHandle} : b.Takes hs ↔ ∀ h ∈ hs, h.id ∈ b.ids := by
  refine ⟨fun htakes => htakes.handles, fun hhandles => ⟨hhandles,
    fun e he => Or.inl (hwell.known e he).1, hwell.acyclic, fun h' hh' hpath => ?_⟩⟩
  obtain ⟨v, ⟨e, he, hsource, -⟩, -⟩ := Relation.TransGen.head'_iff.mp hpath
  exact h.counter_not_mem (hsource ▸ (hwell.known e he).1)

/-- **When `validate` rejects a join**, with any two handles: in a valid builder, with a handle of
its own on the left, iff the id of the other handle is unknown. -/
theorem foreign_rejected_iff {calls : List (BuilderCall U)} {b b' : DataflowGraphBuilder U}
    (h : Steps DataflowGraphBuilder.Step {} calls b) {left other : StreamHandle}
    {join : BuilderCall U}
    (hjoin : join = .windowJoin left other ∨ join = .intervalJoin left other)
    (hstep : b.Step join b') : ∃ result,
      (∀ fuel, b'.nodes.length + b'.edges.length ≤ fuel → b'.validate fuel = some result) ∧
      (result ≠ .ok ↔ ¬ b.Takes [left, other]) ∧
      (b.WellFormed → left.id ∈ b.ids → (result ≠ .ok ↔ other.id ∉ b.ids)) := by
  have hb := built_of_steps h
  obtain ⟨handle, happly⟩ := hstep
  have hb' := hb.apply happly
  have hadded : ∃ name op, join.added = some (name, op) ∧ join.handles = [left, other] := by
    rcases hjoin with rfl | rfl <;> exact ⟨_, _, rfl, rfl⟩
  obtain ⟨name, op, hadded, hhandles⟩ := hadded
  obtain ⟨-, heq⟩ := (BuilderCall.apply_eq_some hadded hb.edgeSize).mp happly
  obtain ⟨-, rfl⟩ := Prod.mk.inj heq
  obtain ⟨result, hvalidate, hok⟩ := hb'.exists_validate
  have hiff : result ≠ .ok ↔ ¬ b.Takes [left, other] := by
    rw [Ne, hok, hb.grown_wellFormed_iff hb', hhandles]
  refine ⟨result, hvalidate, hiff, fun hwell hleft => ?_⟩
  rw [hiff, hb.takes_iff hwell, List.forall_mem_cons, List.forall_mem_singleton,
    and_iff_right hleft]

/-- A source, and a handle with an id that is not known. -/
theorem foreign_rejected_unknown : ∃ (b b' : DataflowGraphBuilder Unit) (result : ValidationResult),
    Steps DataflowGraphBuilder.Step {} [.source (fun u => (none, u)) ()] b ∧
      b.Step (.windowJoin ⟨⟨1⟩⟩ ⟨⟨7⟩⟩) b' ∧ b'.validate 4 = some result ∧ result ≠ .ok := by
  have hsteps : Steps DataflowGraphBuilder.Step ({} : DataflowGraphBuilder Unit)
      [.source (fun u => (none, u)) ()] _ := .single ⟨_, rfl⟩
  obtain ⟨result, hresult, hiff, -⟩ :=
    @foreign_rejected_iff Unit _ _ _ hsteps ⟨⟨1⟩⟩ ⟨⟨7⟩⟩ _ (Or.inl rfl) ⟨_, rfl⟩
  refine ⟨_, _, result, hsteps, ⟨_, rfl⟩, hresult 4 (by decide), hiff.mpr fun htakes => ?_⟩
  exact absurd (htakes.handles ⟨⟨7⟩⟩ (by decide)) (by decide)

/-- Two builders with a source each: the handle of the second one is taken for the source of the
first. -/
theorem foreign_rewired : ∃ s t : Session Unit,
    Steps Session.Step {} [.source (fun u => (none, u)) ()] s ∧
      Steps Session.Step {} [.source (fun u => (none, u)) ()] t ∧
      ∃ left ∈ s.handles, ∃ other ∈ t.handles, ∃ b,
        s.builder.Step (.windowJoin left other) b ∧ b.validate 4 = some .ok ∧
        ∃ e ∈ b.edges, e.source = other.id ∧ e.source ∈ s.builder.ids := by
  have hsteps : Steps Session.Step ({} : Session Unit) [.source (fun u => (none, u)) ()] _ :=
    .single ⟨fun h hh => (List.not_mem_nil hh).elim, _, rfl, rfl⟩
  exact ⟨_, _, hsteps, hsteps, ⟨⟨1⟩⟩, by decide, ⟨⟨1⟩⟩, by decide, _, ⟨_, rfl⟩, by decide,
    ⟨⟨0⟩, ⟨1⟩, ⟨2⟩, .forward⟩, by decide, rfl, by decide⟩

end Xtream
