import Xtream.Lib.While
import Mathlib.Data.Fintype.Card
import Mathlib.Data.List.Perm.Subperm
import Mathlib.Data.Set.Finite.List
import Mathlib.Logic.Relation

/-!
# Kahn's algorithm

The graph is a list of vertices of any type and a list of edges: parallel edges, self-loops and
edges between vertices that are not listed are allowed. The algorithm starts with the listed
vertices without incoming edges in a queue, takes a vertex from the queue, appends it to the order,
and removes its outgoing edges; a vertex joins the queue when its last incoming edge is removed.

`Orders` says what the order is: it has no duplicates, each vertex comes after all its predecessors,
and no vertex is missing whose predecessors are all there.

* `exists_sort`: the algorithm ends, with such an order;
* `Orders.mem_of_transGen`: a vertex comes after everything that leads to it;
* `Orders.mem_iff`: the order has the vertices that no cycle leads to;
* `Orders.perm_iff`: between the listed vertices it has all of them iff there is no cycle.
-/

namespace TopologicalSort

universe u

variable {α : Type u}

/-! ## Orders -/

/-- There is an edge. -/
def Edge (es : List (α × α)) (u v : α) : Prop := (u, v) ∈ es

/-- The vertices that the algorithm can meet: those listed, and the targets of edges. -/
def InScope (es : List (α × α)) (vs : List α) (v : α) : Prop :=
  v ∈ vs ∨ ∃ u, Edge es u v

theorem inScope_iff {es : List (α × α)} {vs : List α} {v : α} :
    InScope es vs v ↔ v ∈ vs ++ es.map Prod.snd := by
  rw [List.mem_append, List.mem_map]
  constructor
  · rintro (h | ⟨u, h⟩)
    · exact Or.inl h
    · exact Or.inr ⟨(u, v), h, rfl⟩
  · rintro (h | ⟨⟨u, w⟩, h, rfl⟩)
    · exact Or.inl h
    · exact Or.inr ⟨u, h⟩

/-- An order that goes along the edges and cannot be extended. -/
structure Orders (es : List (α × α)) (vs order : List α) : Prop where
  nodup : order.Nodup
  scope : ∀ v ∈ order, InScope es vs v
  sorted : ∀ before v after, order = before ++ v :: after → ∀ u, Edge es u v → u ∈ before
  closed : ∀ v, InScope es vs v → (∀ u, Edge es u v → u ∈ order) → v ∈ order

namespace Orders

variable {es : List (α × α)} {vs order : List α}

/-- Only what can be met depends on the vertices listed. -/
theorem congr {vs' : List α} (h : Orders es vs order)
    (hscope : ∀ v, InScope es vs v ↔ InScope es vs' v) : Orders es vs' order where
  nodup := h.nodup
  scope v hv := (hscope v).mp (h.scope v hv)
  sorted := h.sorted
  closed v hv := h.closed v ((hscope v).mpr hv)

/-- A vertex comes after everything that leads to it. -/
theorem mem_of_transGen (h : Orders es vs order) {before after : List α} {u v : α}
    (horder : order = before ++ v :: after) (huv : Relation.TransGen (Edge es) u v) :
    u ∈ before := by
  induction huv generalizing before after with
  | single hedge => exact h.sorted before _ after horder u hedge
  | tail _ hedge ih =>
    have hw := h.sorted before _ after horder _ hedge
    obtain ⟨b1, b2, rfl⟩ := List.append_of_mem hw
    rw [List.append_assoc] at horder
    exact List.mem_append_left _ (ih horder)

theorem mem_of_reflTransGen (h : Orders es vs order) {u v : α} (hv : v ∈ order)
    (huv : Relation.ReflTransGen (Edge es) u v) : u ∈ order := by
  rcases Relation.reflTransGen_iff_eq_or_transGen.mp huv with rfl | huv
  · exact hv
  · obtain ⟨before, after, horder⟩ := List.append_of_mem hv
    rw [horder]
    exact List.mem_append_left _ (h.mem_of_transGen horder huv)

/-- No vertex of the order lies on a cycle or behind one. -/
theorem not_behind_cycle (h : Orders es vs order) {u v : α} (hv : v ∈ order)
    (huv : Relation.ReflTransGen (Edge es) u v) : ¬ Relation.TransGen (Edge es) u u := by
  intro hcycle
  obtain ⟨before, after, horder⟩ := List.append_of_mem (h.mem_of_reflTransGen hv huv)
  have hu := h.mem_of_transGen horder hcycle
  have hnodup := horder ▸ h.nodup
  exact (List.nodup_append.mp hnodup).2.2 u hu u List.mem_cons_self rfl

/-- A vertex that no cycle leads to is in the order, when the edges come from vertices that the
algorithm can meet. -/
theorem mem_of_no_cycle (h : Orders es vs order)
    (hsources : ∀ u v, Edge es u v → InScope es vs u) {v : α} (hv : InScope es vs v)
    (hcycle : ∀ u, Relation.ReflTransGen (Edge es) u v → ¬ Relation.TransGen (Edge es) u u) :
    v ∈ order := by
  -- the vertices that lead to `v`: a first one among those that are missing could be appended
  let Before := {x // InScope es vs x ∧ Relation.ReflTransGen (Edge es) x v}
  have hfinite : Finite Before :=
    ((List.finite_toSet (vs ++ es.map Prod.snd)).subset
      fun x hx => inScope_iff.mp hx.1).to_subtype
  let leads : Before → Before → Prop := fun x y => Relation.TransGen (Edge es) x.1 y.1
  have htrans : IsTrans Before leads := ⟨fun _ _ _ hxy hyz => hxy.trans hyz⟩
  have hirrefl : Std.Irrefl leads := ⟨fun x => hcycle x.1 x.2.2⟩
  by_contra hout
  obtain ⟨m, hm, hmin⟩ := (Finite.wellFounded_of_trans_of_irrefl leads).has_min
    {x | x.1 ∉ order} ⟨⟨v, hv, .refl⟩, hout⟩
  refine hm (h.closed m.1 m.2.1 fun u hu => ?_)
  by_contra huout
  exact hmin ⟨u, hsources u m.1 hu, .head hu m.2.2⟩ huout (.single hu)

/-- The order has the vertices that no cycle leads to. -/
theorem mem_iff (h : Orders es vs order)
    (hsources : ∀ u v, Edge es u v → InScope es vs u) {v : α} :
    v ∈ order ↔ InScope es vs v ∧
      ∀ u, Relation.ReflTransGen (Edge es) u v → ¬ Relation.TransGen (Edge es) u u :=
  ⟨fun hv => ⟨h.scope v hv, fun _ huv => h.not_behind_cycle hv huv⟩,
    fun hv => h.mem_of_no_cycle hsources hv.1 hv.2⟩

/-- Between the listed vertices: **the order has all of them iff there is no cycle.** -/
theorem perm_iff (h : Orders es vs order) (hnodup : vs.Nodup)
    (hknown : ∀ u v, Edge es u v → u ∈ vs ∧ v ∈ vs) :
    order.Perm vs ↔ ∀ v, ¬ Relation.TransGen (Edge es) v v := by
  constructor
  · intro hperm v hcycle
    obtain ⟨w, hw, -⟩ := Relation.TransGen.head'_iff.mp hcycle
    exact h.not_behind_cycle (hperm.mem_iff.mpr (hknown v w hw).1) .refl hcycle
  · intro hacyclic
    refine (List.perm_ext_iff_of_nodup h.nodup hnodup).mpr fun v => ⟨fun hv => ?_, fun hv => ?_⟩
    · rcases h.scope v hv with hv | ⟨u, hu⟩
      · exact hv
      · exact (hknown u v hu).2
    · exact h.mem_of_no_cycle (fun u v huv => Or.inl (hknown u v huv).1) (Or.inl hv)
        fun u _ => hacyclic u

theorem length_iff (h : Orders es vs order) (hnodup : vs.Nodup)
    (hknown : ∀ u v, Edge es u v → u ∈ vs ∧ v ∈ vs) :
    order.length = vs.length ↔ ∀ v, ¬ Relation.TransGen (Edge es) v v := by
  rw [← h.perm_iff hnodup hknown]
  refine ⟨fun hlen => ?_, List.Perm.length_eq⟩
  have hsub : order ⊆ vs := fun v hv => by
    rcases h.scope v hv with hv | ⟨u, hu⟩
    · exact hv
    · exact (hknown u v hu).2
  exact (h.nodup.subperm hsub).perm_of_length_le hlen.ge

/-- Nothing leads to the first vertex. -/
theorem first {v : α} {rest : List α} (h : Orders es vs (v :: rest)) (u : α) : ¬ Edge es u v :=
  fun hu => absurd (h.sorted [] v rest rfl u hu) List.not_mem_nil

end Orders

/-! ## The algorithm -/

section

variable [DecidableEq α]

/-- What the edges lead to from `u`, in their order. -/
def targets (es : List (α × α)) (u : α) : List α :=
  es.filterMap fun e => if e.1 = u then some e.2 else none

/-- The number of edges into `v` that do not come from `done`. -/
def remaining (es : List (α × α)) (done : List α) (v : α) : Nat :=
  es.countP fun e => e.1 ∉ done ∧ e.2 = v

/-- The variables of the loop. -/
structure State (α : Type u) where
  inDegree : α → Nat
  queue : List α
  order : List α

/-- One incoming edge of `v` is removed. -/
def visit (s : State α) (v : α) : State α :=
  let inDegree := Function.update s.inDegree v (s.inDegree v - 1)
  { s with
    inDegree
    queue := if inDegree v = 0 then s.queue ++ [v] else s.queue }

/-- One round: a vertex is taken from the queue. -/
def round (es : List (α × α)) (s : State α) : State α :=
  match s.queue with
  | [] => s
  | u :: queue => (targets es u).foldl visit { s with queue, order := s.order ++ [u] }

/-- The queue at the start: the vertices without incoming edges. -/
def roots (es : List (α × α)) (vs : List α) : List α := vs.filter fun v => remaining es [] v = 0

/-- The loop. -/
def sort (fuel : Nat) (es : List (α × α)) (vs : List α) : Option (State α) :=
  While.run (fun s => !s.queue.isEmpty) (While.pure (round es)) fuel
    ⟨remaining es [], roots es vs, []⟩

/-! ### One round -/

theorem mem_targets {es : List (α × α)} {u v : α} : v ∈ targets es u ↔ Edge es u v := by
  unfold targets Edge
  rw [List.mem_filterMap]
  constructor
  · rintro ⟨⟨u', v'⟩, he, h⟩
    by_cases hu : u' = u
    · subst hu
      simp only [if_true, Option.some.injEq] at h
      exact h ▸ he
    · simp [hu] at h
  · exact fun h => ⟨(u, v), h, by simp⟩

theorem targets_cons_self (u v : α) (es : List (α × α)) :
    targets ((u, v) :: es) u = v :: targets es u := by
  simp [targets]

theorem targets_cons_other {u u' : α} (h : u' ≠ u) (v : α) (es : List (α × α)) :
    targets ((u', v) :: es) u = targets es u := by
  simp [targets, h]

theorem remaining_eq_zero {es : List (α × α)} {done : List α} {v : α} :
    remaining es done v = 0 ↔ ∀ u, Edge es u v → u ∈ done := by
  unfold remaining Edge
  rw [List.countP_eq_zero]
  constructor
  · intro h u hu
    by_contra hout
    exact h (u, v) hu (by simp [hout])
  · rintro h ⟨u, w⟩ he hp
    simp only [decide_eq_true_eq] at hp
    obtain ⟨hout, rfl⟩ := hp
    exact hout (h u he)

/-- The edges from a further vertex are removed. -/
theorem remaining_snoc {es : List (α × α)} {done : List α} {u : α} (hu : u ∉ done) (v : α) :
    remaining es done v = remaining es (done ++ [u]) v + (targets es u).count v := by
  unfold remaining targets
  induction es with
  | nil => rfl
  | cons e es ih =>
    rw [List.countP_cons, List.countP_cons, List.filterMap_cons, ih]
    by_cases hev : e.2 = v
    · by_cases heu : e.1 = u
      · simp [heu, hev, hu, Nat.add_assoc]
      · simp [heu, hev, Nat.add_right_comm]
    · by_cases heu : e.1 = u
      · simp [heu, hev]
      · simp [heu, hev]

/-- The edges from a vertex are removed: a target whose edges they all are joins the queue. -/
theorem foldl_visit {vs : List α} {s : State α} (h : ∀ v, vs.count v ≤ s.inDegree v) :
    ∃ new, vs.foldl visit s =
        ⟨fun v => s.inDegree v - vs.count v, s.queue ++ new, s.order⟩ ∧
      new.Nodup ∧ ∀ v, v ∈ new ↔ v ∈ vs ∧ s.inDegree v = vs.count v := by
  induction vs generalizing s with
  | nil => exact ⟨[], by simp, List.nodup_nil, by simp⟩
  | cons w vs ih =>
    have hw : vs.count w + 1 ≤ s.inDegree w := by simpa using h w
    have hother : ∀ v, v ≠ w → (w :: vs).count v = vs.count v := fun v hv =>
      List.count_cons_of_ne hv.symm
    obtain ⟨new, heq, hnodup, hmem⟩ := @ih (visit s w) fun v => by
      by_cases hv : v = w
      · subst hv
        simp only [visit, Function.update_self]
        omega
      · simp only [visit, Function.update_of_ne hv]
        exact hother v hv ▸ h v
    have hdegree : (visit s w).inDegree w = s.inDegree w - 1 := Function.update_self ..
    have hkeep : ∀ v, v ≠ w → (visit s w).inDegree v = s.inDegree v := fun v hv =>
      Function.update_of_ne hv ..
    have hfun : (fun v => (visit s w).inDegree v - vs.count v) =
        fun v => s.inDegree v - (w :: vs).count v := by
      funext v
      by_cases hv : v = w
      · subst hv
        rw [hdegree, List.count_cons_self]
        omega
      · rw [hkeep v hv, hother v hv]
    by_cases hlast : s.inDegree w - 1 = 0
    · have hout : w ∉ vs := List.count_eq_zero.mp (by omega)
      have hqueue : (visit s w).queue = s.queue ++ [w] := by simp [visit, hlast]
      refine ⟨w :: new, ?_, List.nodup_cons.mpr ⟨fun hin => hout ((hmem w).mp hin).1, hnodup⟩,
        fun v => ?_⟩
      · rw [List.foldl_cons, heq, hfun, hqueue, List.append_assoc]
        rfl
      · by_cases hv : v = w
        · subst hv
          simp only [List.mem_cons, true_or, true_and, List.count_cons_self, true_iff]
          have := List.count_eq_zero.mpr hout
          omega
        · rw [List.mem_cons, List.mem_cons, hmem, hkeep v hv, hother v hv]
          simp [hv]
    · have hqueue : (visit s w).queue = s.queue := by simp [visit, hlast]
      refine ⟨new, ?_, hnodup, fun v => ?_⟩
      · rw [List.foldl_cons, heq, hfun, hqueue]
        rfl
      · rw [hmem]
        by_cases hv : v = w
        · subst hv
          rw [hdegree, List.count_cons_self]
          constructor
          · exact fun ⟨_, hcount⟩ => ⟨List.mem_cons_self, by omega⟩
          · exact fun ⟨_, hcount⟩ => ⟨List.count_pos_iff.mp (by omega), by omega⟩
        · rw [List.mem_cons, hkeep v hv, hother v hv]
          simp [hv]

/-- What the rounds keep. -/
structure Inv (es : List (α × α)) (vs : List α) (s : State α) : Prop where
  inDegree : ∀ v, s.inDegree v = remaining es s.order v
  nodup : (s.order ++ s.queue).Nodup
  mem : ∀ v, v ∈ s.order ++ s.queue ↔ InScope es vs v ∧ s.inDegree v = 0
  sorted : ∀ before v after, s.order = before ++ v :: after → ∀ u, Edge es u v → u ∈ before

namespace Inv

variable {es : List (α × α)} {vs : List α} {s : State α}

theorem start (hnodup : vs.Nodup) : Inv es vs ⟨remaining es [], roots es vs, []⟩ where
  inDegree _ := rfl
  nodup := hnodup.filter _
  mem v := by
    show v ∈ roots es vs ↔ _
    rw [roots, List.mem_filter, decide_eq_true_eq]
    constructor
    · exact fun ⟨hv, hzero⟩ => ⟨Or.inl hv, hzero⟩
    · rintro ⟨hv | ⟨u, hu⟩, hzero⟩
      · exact ⟨hv, hzero⟩
      · cases remaining_eq_zero.mp hzero u hu
  sorted before v after h := by
    cases before <;> cases h

/-- The targets of the vertex taken have edges left, one for each time they are visited. -/
theorem count_le (h : Inv es vs s) {u : α} {queue : List α} (hqueue : s.queue = u :: queue)
    (v : α) : (targets es u).count v ≤ s.inDegree v := by
  have hnodup := h.nodup
  rw [hqueue] at hnodup
  have hu : u ∉ s.order := fun hin =>
    (List.nodup_append.mp hnodup).2.2 u hin u List.mem_cons_self rfl
  rw [h.inDegree, remaining_snoc hu]
  exact Nat.le_add_left _ _

/-- One round keeps the invariant, and the order grows. -/
theorem round (h : Inv es vs s) (hne : s.queue ≠ []) :
    Inv es vs (round es s) ∧
      (TopologicalSort.round es s).order.length = s.order.length + 1 := by
  cases hqueue : s.queue with
  | nil => exact absurd hqueue hne
  | cons u queue =>
    have hnodup := h.nodup
    rw [hqueue] at hnodup
    have hu : u ∉ s.order := fun hin =>
      (List.nodup_append.mp hnodup).2.2 u hin u List.mem_cons_self rfl
    have hcount := h.count_le hqueue
    obtain ⟨new, heq, hnew, hmem⟩ :=
      @foldl_visit α _ (targets es u) { s with queue, order := s.order ++ [u] } hcount
    have hround : TopologicalSort.round es s =
        ⟨fun v => s.inDegree v - (targets es u).count v, queue ++ new, s.order ++ [u]⟩ := by
      rw [TopologicalSort.round, hqueue]
      exact heq
    have hzero : s.inDegree u = 0 := ((h.mem u).mp (by simp [hqueue])).2
    have hlist : s.order ++ [u] ++ (queue ++ new) = s.order ++ u :: queue ++ new := by simp
    rw [hround]
    refine ⟨⟨fun v => ?_, ?_, fun v => ?_, fun before v after horder => ?_⟩, by simp⟩
    · show s.inDegree v - (targets es u).count v = remaining es (s.order ++ [u]) v
      rw [h.inDegree, remaining_snoc hu]
      omega
    · show (s.order ++ [u] ++ (queue ++ new)).Nodup
      rw [hlist]
      refine List.nodup_append.mpr ⟨hnodup, hnew, fun v hv w hw heqv => ?_⟩
      subst heqv
      have hvzero := ((h.mem v).mp (hqueue ▸ hv)).2
      obtain ⟨hvtarget, hvcount⟩ := (hmem v).mp hw
      have := List.count_pos_iff.mpr hvtarget
      simp only at hvcount
      omega
    · show v ∈ s.order ++ [u] ++ (queue ++ new) ↔
        InScope es vs v ∧ s.inDegree v - (targets es u).count v = 0
      rw [hlist, List.mem_append, ← hqueue, h.mem, hmem]
      have hle := hcount v
      constructor
      · rintro (⟨hscope, hv⟩ | ⟨hv, hlast⟩)
        · exact ⟨hscope, by omega⟩
        · simp only at hlast
          exact ⟨Or.inr ⟨u, mem_targets.mp hv⟩, by omega⟩
      · rintro ⟨hscope, hv⟩
        by_cases hv0 : s.inDegree v = 0
        · exact Or.inl ⟨hscope, hv0⟩
        · exact Or.inr ⟨List.count_pos_iff.mp (by omega), by simp only; omega⟩
    · rcases List.eq_nil_or_concat after with rfl | ⟨after, w, rfl⟩
      · obtain ⟨rfl, hv⟩ := List.append_inj' horder rfl
        cases hv
        rw [h.inDegree] at hzero
        exact remaining_eq_zero.mp hzero
      · have hinit : s.order = before ++ v :: after := by
          have horder' : s.order ++ [u] = (before ++ v :: after) ++ [w] := by simpa using horder
          exact (List.append_inj' horder' rfl).1
        exact h.sorted before v after hinit

theorem length_le (h : Inv es vs s) :
    (s.order ++ s.queue).length ≤ vs.length + es.length := by
  have hsub : s.order ++ s.queue ⊆ vs ++ es.map Prod.snd := fun v hv =>
    inScope_iff.mp ((h.mem v).mp hv).1
  have hlen := (h.nodup.subperm hsub).length_le
  simpa using hlen

/-- With an empty queue the order is complete. -/
theorem orders (h : Inv es vs s) (hqueue : s.queue = []) : Orders es vs s.order := by
  have hmem : ∀ v, v ∈ s.order ↔ InScope es vs v ∧ s.inDegree v = 0 := by
    simpa [hqueue] using h.mem
  refine ⟨(List.nodup_append.mp h.nodup).1, fun v hv => ((hmem v).mp hv).1, h.sorted,
    fun v hscope hv => ?_⟩
  rw [hmem, h.inDegree, remaining_eq_zero]
  exact ⟨hscope, hv⟩

end Inv

/-- The order after some rounds has one vertex for each. -/
theorem iterate_round {es : List (α × α)} {vs : List α} (hnodup : vs.Nodup) {k : Nat}
    (h : ∀ j < k, (!((round es)^[j] ⟨remaining es [], roots es vs, []⟩).queue.isEmpty) = true) :
    Inv es vs ((round es)^[k] ⟨remaining es [], roots es vs, []⟩) ∧
      ((round es)^[k] ⟨remaining es [], roots es vs, []⟩).order.length = k := by
  induction k with
  | zero => exact ⟨Inv.start hnodup, rfl⟩
  | succ k ih =>
    obtain ⟨hinv, hlen⟩ := ih fun j hj => h j (by omega)
    have hne := h k (by omega)
    rw [Function.iterate_succ_apply']
    obtain ⟨hinv', hlen'⟩ := hinv.round (by simpa using hne)
    exact ⟨hinv', by omega⟩

/-- **The algorithm ends**, after one round for each vertex of the order, which is complete. -/
theorem exists_sort (es : List (α × α)) {vs : List α} (hnodup : vs.Nodup) :
    ∃ s, (∀ fuel, s.order.length ≤ fuel → sort fuel es vs = some s) ∧ Inv es vs s ∧
      Orders es vs s.order := by
  have hmeasure : ∀ t, While.Visits (fun s : State α => !s.queue.isEmpty) (round es)
      ⟨remaining es [], roots es vs, []⟩ t → (!t.queue.isEmpty) = true →
      vs.length + es.length - (round es t).order.length <
        vs.length + es.length - t.order.length := by
    rintro t ⟨k, rfl, hj⟩ hne
    have hinv := (iterate_round hnodup hj).1
    have hgrow := (hinv.round (by simpa using hne)).2
    have hbound := hinv.length_le
    have hpos : 0 < ((round es)^[k] ⟨remaining es [], roots es vs, []⟩).queue.length :=
      List.length_pos_iff.mpr (by simpa using hne)
    rw [List.length_append] at hbound
    omega
  obtain ⟨s, hs⟩ := While.run_of_measure
    (fun s : State α => vs.length + es.length - s.order.length) hmeasure (Nat.le_refl _)
  obtain ⟨k, -, rfl, hempty, hj⟩ := While.run_pure_iff.mp hs
  obtain ⟨hinv, hlen⟩ := iterate_round hnodup hj
  refine ⟨_, fun fuel hfuel => ?_, hinv, hinv.orders (by simpa using hempty)⟩
  exact While.run_pure_iff.mpr ⟨k, hlen ▸ hfuel, rfl, hempty, hj⟩

end

end TopologicalSort
