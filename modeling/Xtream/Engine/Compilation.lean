import Xtream.Engine.Compiler
import Xtream.Graph.TopologicalOrder

/-!
# What the compiler makes of a graph

* `compileOperators_eq`, `setNexts_eq`: the two loops of `compile`;
* `compile_eq`: on a graph whose operators all compile, with an order of all of them, `compile`
  returns the first one of the order, and `next_` is the target of the last edge.
-/

namespace Xtream

open TopologicalSort (targets targets_cons_self targets_cons_other)

namespace Compiler

variable {U : Type} {g : DataflowGraph U}

/-- The first loop compiles every operator. -/
theorem compileOperators_eq (hids : (g.operators.map (·.id)).Nodup) {order : List OperatorId}
    (horder : ∀ id ∈ order, id ∈ g.operators.map (·.id))
    (compiled : OperatorId → Option (PhysicalOperator U)) :
    ∃ compiled', compileOperators g compiled order = .ok compiled' ∧
      (∀ op ∈ g.operators, op.id ∈ order → compiled' op.id = op.compile) ∧
      ∀ id, id ∉ order → compiled' id = compiled id := by
  induction order generalizing compiled with
  | nil => exact ⟨compiled, rfl, fun _ _ hid => absurd hid List.not_mem_nil, fun _ _ => rfl⟩
  | cons id order ih =>
    obtain ⟨hid, hrest⟩ := List.forall_mem_cons.mp horder
    obtain ⟨op, hop, rfl⟩ := List.mem_map.mp hid
    obtain ⟨compiled', hok, hin, hkeep⟩ := ih hrest (Function.update compiled op.id op.compile)
    refine ⟨compiled', ?_, fun op' hop' hid' => ?_, fun id' hid' => ?_⟩
    · rw [compileOperators, g.op_eq hids hop]
      exact hok
    · by_cases hmem : op'.id ∈ order
      · exact hin op' hop' hmem
      · have heq : op'.id = op.id := (List.mem_cons.mp hid').resolve_right hmem
        obtain rfl := List.inj_on_of_nodup_map hids hop' hop heq
        rw [hkeep _ hmem, Function.update_self]
    · rw [List.mem_cons, not_or] at hid'
      rw [hkeep id' hid'.2, Function.update_of_ne hid'.1]

/-- The second loop sets `next_` to the target of the last edge. -/
theorem setNexts_eq {compiled : OperatorId → Option (PhysicalOperator U)} {edges : List StreamEdge}
    (h : ∀ e ∈ edges, (compiled e.source).isSome ∧ (compiled e.target).isSome)
    (next : OperatorId → Option OperatorId) :
    ∃ next', setNexts compiled next edges = .ok next' ∧
      ∀ id, next' id = (targets (endpoints edges) id).getLast?.or (next id) := by
  induction edges generalizing next with
  | nil => exact ⟨next, rfl, fun id => rfl⟩
  | cons e edges ih =>
    obtain ⟨⟨hsource, htarget⟩, hrest⟩ := List.forall_mem_cons.mp h
    obtain ⟨op, hop⟩ := Option.isSome_iff_exists.mp hsource
    obtain ⟨op', hop'⟩ := Option.isSome_iff_exists.mp htarget
    obtain ⟨next', hok, hnext⟩ := ih hrest (Function.update next e.source (some e.target))
    refine ⟨next', ?_, fun id => ?_⟩
    · rw [setNexts, hop, hop']
      exact hok
    · rw [hnext]
      show _ = (targets ((e.source, e.target) :: endpoints edges) id).getLast?.or (next id)
      by_cases hid : e.source = id
      · subst hid
        rw [targets_cons_self, Function.update_self, List.getLast?_cons]
        cases (targets (endpoints edges) e.source).getLast? <;> rfl
      · rw [targets_cons_other hid, Function.update_of_ne (Ne.symm hid)]

/-- What `compile` returns, from an order of all the operators. -/
theorem compile_eq (hids : (g.operators.map (·.id)).Nodup)
    (hcompile : ∀ op ∈ g.operators, op.compile.isSome = true)
    (hknown : ∀ e ∈ g.edges, e.source ∈ g.operators.map (·.id) ∧
      e.target ∈ g.operators.map (·.id)) {fuel : Nat} {keys : List OperatorId} {root : OperatorId}
    {order : List OperatorId} (horder : g.topologicalOrder fuel keys = some (root :: order))
    (hperm : (root :: order).Perm (g.operators.map (·.id))) :
    ∃ c, compile fuel keys g = some (.ok c) ∧ c.root = root ∧
      (∀ op ∈ g.operators, c.compiled op.id = op.compile) ∧
      ∀ id, c.next id = (g.targetsOf id).getLast? := by
  obtain ⟨compiled, hok, hcompiled, -⟩ :=
    compileOperators_eq hids (fun id hid => hperm.mem_iff.mp hid) fun _ => none
  have hall : ∀ op ∈ g.operators, compiled op.id = op.compile := fun op hop =>
    hcompiled op hop (hperm.mem_iff.mpr (List.mem_map_of_mem hop))
  have hsome : ∀ id ∈ g.operators.map (·.id), (compiled id).isSome = true := by
    intro id hid
    obtain ⟨op, hop, rfl⟩ := List.mem_map.mp hid
    rw [hall op hop]
    exact hcompile op hop
  obtain ⟨next, hnexts, hnext⟩ := @setNexts_eq U compiled g.edges
    (fun e he => ⟨hsome _ (hknown e he).1, hsome _ (hknown e he).2⟩) fun _ => none
  refine ⟨⟨compiled, next, root⟩, ?_, rfl, hall, fun id => ?_⟩
  · unfold compile
    rw [horder, Option.map_some, hok]
    show some (Except.bind (setNexts compiled (fun _ => none) g.edges) _) = _
    rw [hnexts]
    rfl
  · rw [g.targetsOf_eq_targets]
    exact (hnext id).trans (Option.or_none ..)

end Compiler

end Xtream
