import Xtream.Graph.TopologicalOrder

/-!
# Linear graphs

A graph is linear along a path when its operators are those of the path and its edges lead from each
of them to the next one. The vectors may hold them in any order.

* `targetsOf_eq`, `inDegreeOf_eq`: each operator leads to the next one only;
* `topologicalOrder_eq`: the order found is the path, whatever the iteration order of the map.
-/

namespace Xtream

open TopologicalSort (targets targets_cons_self targets_cons_other)

/-- The neighbours in a list. -/
def consecutive {α : Type} : List α → List (α × α)
  | a :: b :: l => (a, b) :: consecutive (b :: l)
  | _ => []

section

variable {α : Type}

theorem mem_of_consecutive {l : List α} {p : α × α} (h : p ∈ consecutive l) :
    p.1 ∈ l ∧ p.2 ∈ l.tail := by
  induction l with
  | nil => cases h
  | cons a l ih =>
    cases l with
    | nil => cases h
    | cons b l =>
      rcases List.mem_cons.mp h with rfl | h
      · exact ⟨List.mem_cons_self, List.mem_cons_self⟩
      · exact ⟨List.mem_cons_of_mem _ (ih h).1, List.mem_cons_of_mem _ (ih h).2⟩

theorem consecutive_concat {l : List α} {a b : α} (h : l.getLast? = some a) :
    consecutive (l ++ [b]) = consecutive l ++ [(a, b)] := by
  induction l with
  | nil => cases h
  | cons c l ih =>
    cases l with
    | nil =>
      cases h
      rfl
    | cons d l => exact congrArg ((c, d) :: ·) (ih h)

theorem consecutive_snd (l : List α) : (consecutive l).map Prod.snd = l.tail := by
  induction l with
  | nil => rfl
  | cons a l ih =>
    cases l with
    | nil => rfl
    | cons b l => exact congrArg (b :: ·) ih

variable [DecidableEq α]

theorem targets_eq_nil {a : α} {l : List α} (h : a ∉ l) : targets (consecutive l) a = [] := by
  refine List.filterMap_eq_nil_iff.mpr fun p hp => if_neg ?_
  rintro rfl
  exact h (mem_of_consecutive hp).1

/-- An element leads to the next one. -/
theorem targets_consecutive {l before after : List α} {a : α} (hnodup : l.Nodup)
    (hl : l = before ++ a :: after) : targets (consecutive l) a = after.head?.toList := by
  induction before generalizing l with
  | nil =>
    subst hl
    obtain ⟨hout, -⟩ := List.nodup_cons.mp hnodup
    cases after with
    | nil => rfl
    | cons b after =>
      show targets ((a, b) :: consecutive (b :: after)) a = [b]
      rw [targets_cons_self, targets_eq_nil hout]
  | cons a' before ih =>
    subst hl
    rw [List.cons_append] at hnodup ⊢
    obtain ⟨hout, hrest⟩ := List.nodup_cons.mp hnodup
    have hne : a' ≠ a := fun h => hout (h ▸ List.mem_append_right before List.mem_cons_self)
    have ih' := ih hrest rfl
    cases hb : before ++ a :: after with
    | nil => simp at hb
    | cons b l =>
      rw [hb] at ih'
      show targets ((a', b) :: consecutive (b :: l)) a = _
      rw [targets_cons_other hne, ih']

end

namespace DataflowGraph

variable {U : Type}

/-- The graph is linear along the path. -/
structure IsPath (g : DataflowGraph U) (path : List (LogicalOperator U)) : Prop where
  operators : g.operators.Perm path
  ids : (path.map (·.id)).Nodup
  edges : (g.edges.map fun e => (e.source, e.target)).Perm (consecutive (path.map (·.id)))

theorem orderRound_of_queue (g : DataflowGraph U) {s : OrderState} {id : OperatorId}
    {queue : List OperatorId} (h : s.queue = id :: queue) : g.orderRound s =
      (g.targetsOf id).foldl visit { s with queue, order := s.order ++ [id] } := by
  unfold orderRound
  rw [h]

namespace IsPath

variable {g : DataflowGraph U} {path : List (LogicalOperator U)}

/-- Each operator leads to the next one only. -/
theorem targetsOf_eq (h : g.IsPath path) {before after : List OperatorId} {id : OperatorId}
    (hids : path.map (·.id) = before ++ id :: after) : g.targetsOf id = after.head?.toList := by
  have hperm : (g.targetsOf id).Perm after.head?.toList := by
    rw [targetsOf_eq_targets, ← targets_consecutive h.ids hids]
    exact h.edges.filterMap _
  cases hafter : after.head? with
  | none =>
    rw [hafter] at hperm
    exact hperm.eq_nil
  | some b =>
    rw [hafter] at hperm
    exact List.perm_singleton.mp hperm

/-- Each operator but the first is led to once. -/
theorem inDegreeOf_eq (h : g.IsPath path) (id : OperatorId) :
    g.inDegreeOf id = (path.map (·.id)).tail.count id := by
  have hcount : g.inDegreeOf id =
      ((g.edges.map fun e => (e.source, e.target)).map Prod.snd).count id := by
    rw [List.map_map, List.count, List.countP_map]
    refine List.countP_congr fun e _ => ?_
    simp
  rw [hcount, (h.edges.map Prod.snd).count_eq, consecutive_snd]

/-- The keys of `in_degree` are the operators. -/
theorem mem_inDegreeKeys (h : g.IsPath path) {id : OperatorId} :
    id ∈ g.inDegreeKeys ↔ id ∈ path.map (·.id) := by
  unfold inDegreeKeys
  rw [List.mem_dedup, List.mem_append, (h.operators.map (·.id)).mem_iff]
  refine ⟨fun hid => hid.elim (fun hid => hid) fun hid => ?_, Or.inl⟩
  obtain ⟨e, he, rfl⟩ := List.mem_map.mp hid
  have hpair : (e.source, e.target) ∈ consecutive (path.map (·.id)) :=
    h.edges.mem_iff.mp (List.mem_map.mpr ⟨e, he, rfl⟩)
  exact List.mem_of_mem_tail (mem_of_consecutive hpair).2

/-- The queue starts with the first operator, whatever the order of the keys. -/
theorem filter_keys (h : g.IsPath path) {keys : List OperatorId}
    (hkeys : keys.Perm g.inDegreeKeys) {id : OperatorId} {after : List OperatorId}
    (hids : path.map (·.id) = id :: after) :
    (keys.filter fun id => g.inDegreeOf id = 0) = [id] := by
  have hnodup := hids ▸ h.ids
  have hkeysNodup : keys.Nodup := hkeys.nodup_iff.mpr (List.nodup_dedup _)
  refine List.perm_singleton.mp
    ((List.perm_ext_iff_of_nodup (hkeysNodup.filter _) (List.nodup_singleton _)).mpr fun x => ?_)
  rw [List.mem_filter, hkeys.mem_iff, h.mem_inDegreeKeys, decide_eq_true_eq, h.inDegreeOf_eq, hids,
    List.tail_cons, List.count_eq_zero, List.mem_cons, List.mem_singleton]
  refine ⟨fun ⟨hx, hnot⟩ => hx.resolve_right hnot, ?_⟩
  rintro rfl
  exact ⟨Or.inl rfl, (List.nodup_cons.mp hnodup).1⟩

/-- The loop of `topological_order` goes along the path. -/
theorem run_orderRound (h : g.IsPath path) {before after : List OperatorId} {id : OperatorId}
    (hids : path.map (·.id) = before ++ id :: after) {fuel : Nat} (hfuel : after.length + 1 ≤ fuel)
    {s : OrderState} (hqueue : s.queue = [id]) (horder : s.order = before)
    (hin : ∀ id ∈ after, s.inDegree id = 1) :
    (While.run (fun s => !s.queue.isEmpty) (While.pure g.orderRound) fuel s).map
      OrderState.order = some (path.map (·.id)) := by
  induction after generalizing before id fuel s with
  | nil =>
    obtain ⟨n, rfl⟩ := Nat.exists_eq_add_of_lt hfuel
    have hround : g.orderRound s = { s with queue := [], order := before ++ [id] } := by
      rw [g.orderRound_of_queue hqueue, horder, h.targetsOf_eq hids]
      rfl
    rw [While.run_pure_succ (by rw [hqueue]; rfl), hround, While.run_of_not rfl, hids]
    rfl
  | cons b after ih =>
    obtain ⟨n, rfl⟩ := Nat.exists_eq_add_of_lt hfuel
    have hround : g.orderRound s =
        ⟨Function.update s.inDegree b 0, [b], before ++ [id]⟩ := by
      rw [g.orderRound_of_queue hqueue, horder, h.targetsOf_eq hids]
      simp [visit, hin b List.mem_cons_self]
    have hids' : path.map (·.id) = (before ++ [id]) ++ b :: after := by simp [hids]
    have hout : b ∉ after := by
      have hnodup := hids' ▸ h.ids
      exact (List.nodup_cons.mp (List.nodup_append.mp hnodup).2.1).1
    rw [While.run_pure_succ (by rw [hqueue]; rfl), hround]
    refine ih hids' (by simp) rfl rfl fun id hid => ?_
    have hne : id ≠ b := fun h => hout (h ▸ hid)
    show Function.update s.inDegree b 0 id = 1
    rw [Function.update_of_ne hne, hin id (List.mem_cons_of_mem _ hid)]

/-- The order found is the path, whatever the iteration order of the map. -/
theorem topologicalOrder_eq (h : g.IsPath path) (hne : path ≠ []) {keys : List OperatorId}
    (hkeys : keys.Perm g.inDegreeKeys) {fuel : Nat} (hfuel : path.length ≤ fuel) :
    g.topologicalOrder fuel keys = some (path.map (·.id)) := by
  cases hids : path.map (·.id) with
  | nil => exact absurd (List.map_eq_nil_iff.mp hids) hne
  | cons id after =>
    have hlen : path.length = after.length + 1 := by
      rw [← List.length_map (·.id), hids, List.length_cons]
    have hnodup := (List.nodup_cons.mp (hids ▸ h.ids)).2
    have hids' : path.map (·.id) = [] ++ id :: after := hids
    rw [← hids]
    refine h.run_orderRound hids' (hlen ▸ hfuel) (h.filter_keys hkeys hids) rfl fun id hid => ?_
    show g.inDegreeOf id = 1
    rw [h.inDegreeOf_eq, hids, List.tail_cons, List.count_eq_one_of_mem hnodup hid]

/-- The ids of the operators are distinct. -/
theorem nodup_ids (h : g.IsPath path) : (g.operators.map (·.id)).Nodup :=
  (h.operators.map (·.id)).nodup_iff.mpr h.ids

end IsPath

end DataflowGraph

end Xtream
