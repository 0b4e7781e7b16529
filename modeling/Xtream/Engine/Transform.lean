import Xtream.Engine.WindowStage

/-!
# Maps and filters in a chain

Maps and filters send on what they make of each element at once, and pass watermarks on. A chain of
them turns a sequence of elements into another one, `pass`; the events that come out are those that
come out when the events alone go in, `survivors`.

* `runChain_pass`: maps and filters in front of a chain;
* `pass_append`: a sequence of elements in two parts;
* `KeepsTime`, `mem_pass`: when no operator changes a timestamp, every element that comes out has
  the timestamp of one that has gone in;
* `inTime_pass`: no event comes out behind a watermark above it, if none goes in so.
-/

namespace Xtream

namespace PhysicalOperator

variable {U : Type}

/-- A map or a filter. -/
def isElementwise : PhysicalOperator U → Bool
  | map _ => true
  | filter _ => true
  | _ => false

/-- What a map or a filter makes of an element. -/
def passOne : PhysicalOperator U → StreamElement → PhysicalOperator U × List StreamElement
  | map op, x => (map (op.execute x).1, nexts (op.execute x).2)
  | filter op, x => (filter (op.execute x).1, nexts (op.execute x).2)
  | op, x => (op, [x])

/-- What a map or a filter makes of a sequence of elements. -/
def pass : PhysicalOperator U → List StreamElement → PhysicalOperator U × List StreamElement
  | op, [] => (op, [])
  | op, x :: xs =>
    let r := op.passOne x
    let s := pass r.1 xs
    (s.1, r.2 ++ s.2)

theorem execute_passOne {op : PhysicalOperator U} (h : op.isElementwise = true) (fuel : Nat)
    (x : StreamElement) : op.execute fuel true none x =
      some ((op.passOne x).1, (op.passOne x).2.map .next) := by
  cases op with
  | map op =>
    cases x with
    | event e => rfl
    | watermark wm => rfl
  | filter op =>
    cases x with
    | event e =>
      show some (filter (op.execute (.event e)).1, (op.execute (.event e)).2) = _
      unfold passOne FilterPhysicalOperator.execute
      by_cases hp : (op.pred op.captured e).1.1 = true
      · simp [hp, nexts, Output.next?]
      · simp [hp, nexts]
    | watermark wm => rfl
  | _ => cases h

theorem passOne_watermark (op : PhysicalOperator U) (wm : Watermark) :
    op.passOne (.watermark wm) = (op, [.watermark wm]) := by
  cases op <;> rfl

theorem passOne_event (op : PhysicalOperator U) (e : Event Record) :
    watermarks (op.passOne (.event e)).2 = [] := by
  cases op with
  | filter op =>
    unfold passOne FilterPhysicalOperator.execute
    by_cases hp : (op.pred op.captured e).1.1 = true
    · simp [hp, nexts, Output.next?]
    · simp [hp, nexts]
  | _ => rfl

theorem passOne_isElementwise (op : PhysicalOperator U) (x : StreamElement) :
    (op.passOne x).1.isElementwise = op.isElementwise := by
  cases op <;> rfl

theorem pass_isElementwise (op : PhysicalOperator U) (xs : List StreamElement) :
    (op.pass xs).1.isElementwise = op.isElementwise := by
  induction xs generalizing op with
  | nil => rfl
  | cons x xs ih => exact (ih _).trans (op.passOne_isElementwise x)

theorem isElementwise_isSource {op : PhysicalOperator U} (h : op.isElementwise = true) :
    op.isSource = false := by
  cases op with
  | map op => rfl
  | filter op => rfl
  | _ => cases h

/-- The stage of a map or a filter. -/
theorem stage_pass {op : PhysicalOperator U} (h : op.isElementwise = true) (fuel : Nat)
    (xs : List StreamElement) : op.stage fuel xs = some ((op.pass xs).2.map .next) := by
  have hfeed : op.feed fuel xs = some ((op.pass xs).1, (op.pass xs).2.map .next) := by
    induction xs generalizing op with
    | nil => rfl
    | cons x xs ih =>
      have h' : (op.passOne x).1.isElementwise = true := (op.passOne_isElementwise x).trans h
      rw [feed, execute_passOne h, Option.bind_eq_bind, Option.bind_some, ih h', pass]
      simp
  have hclose : (op.pass xs).1.close fuel = some ((op.pass xs).1, []) := by
    have h' := (op.pass_isElementwise xs).trans h
    cases hop : (op.pass xs).1 with
    | map op' => rfl
    | filter op' => rfl
    | _ =>
      rw [hop] at h'
      cases h'
  rw [stage, hfeed, Option.bind_eq_bind, Option.bind_some, hclose]
  simp

theorem pass_append (op : PhysicalOperator U) (xs ys : List StreamElement) :
    op.pass (xs ++ ys) =
      (((op.pass xs).1.pass ys).1, (op.pass xs).2 ++ ((op.pass xs).1.pass ys).2) := by
  induction xs generalizing op with
  | nil => rfl
  | cons x xs ih => simp [pass, ih]

/-- Watermarks neither come nor go. -/
theorem watermarks_pass (op : PhysicalOperator U) (xs : List StreamElement) :
    watermarks (op.pass xs).2 = watermarks xs := by
  induction xs generalizing op with
  | nil => rfl
  | cons x xs ih =>
    cases x with
    | event e => simp [pass, ih, passOne_event]
    | watermark wm => simp [pass, ih, passOne_watermark]

/-- The events that come out do not depend on the watermarks. -/
theorem pass_events (op : PhysicalOperator U) (xs : List StreamElement) :
    (op.pass xs).1 = (op.pass ((events xs).map .event)).1 ∧
      events (op.pass xs).2 = events (op.pass ((events xs).map .event)).2 := by
  induction xs generalizing op with
  | nil => exact ⟨rfl, rfl⟩
  | cons x xs ih =>
    cases x with
    | event e =>
      obtain ⟨hop, hev⟩ := ih (op.passOne (.event e)).1
      simp [pass, hop, hev]
    | watermark wm => simpa [pass, passOne_watermark] using ih op

end PhysicalOperator

namespace Chain

variable {U : Type}

/-- What a chain of maps and filters makes of a sequence of elements. -/
def pass : Chain U → List StreamElement → Chain U × List StreamElement
  | [], xs => ([], xs)
  | op :: rest, xs =>
    let r := op.pass xs
    let s := pass rest r.2
    (r.1 :: s.1, s.2)

/-- The events that come out of a chain of maps and filters. -/
def survivors (ops : Chain U) (es : List (Event Record)) : List (Event Record) :=
  events (ops.pass (es.map .event)).2

/-- Maps and filters in front of a chain. -/
theorem runChain_pass {ops : Chain U} (h : ∀ op ∈ ops, op.isElementwise = true) (fuel : Nat)
    (rest : Chain U) (xs : List StreamElement) :
    runChain fuel (ops ++ rest) xs = runChain fuel rest (pass ops xs).2 := by
  induction ops generalizing xs with
  | nil => rfl
  | cons op ops ih =>
    obtain ⟨hop, hops⟩ := List.forall_mem_cons.mp h
    rw [List.cons_append, runChain_cons fuel (PhysicalOperator.isElementwise_isSource hop),
      PhysicalOperator.stage_pass hop fuel xs, Option.bind_some]
    exact (runChain_eq fuel (ops ++ rest) (op.pass xs).2).symm.trans (ih hops (op.pass xs).2)

/-- A chain of maps and filters in two parts. -/
theorem pass_chain_append (ops ops' : Chain U) (xs : List StreamElement) :
    (pass (ops ++ ops') xs).2 = (pass ops' (pass ops xs).2).2 := by
  induction ops generalizing xs with
  | nil => rfl
  | cons op ops ih => exact ih (op.pass xs).2

theorem pass_append (ops : Chain U) (xs ys : List StreamElement) :
    ops.pass (xs ++ ys) =
      (((ops.pass xs).1.pass ys).1, (ops.pass xs).2 ++ ((ops.pass xs).1.pass ys).2) := by
  induction ops generalizing xs ys with
  | nil => rfl
  | cons op ops ih => simp [pass, PhysicalOperator.pass_append, ih]

theorem watermarks_pass (ops : Chain U) (xs : List StreamElement) :
    watermarks (ops.pass xs).2 = watermarks xs := by
  induction ops generalizing xs with
  | nil => rfl
  | cons op ops ih => exact (ih _).trans (op.watermarks_pass xs)

theorem pass_watermark (ops : Chain U) (wm : Watermark) :
    ops.pass [.watermark wm] = (ops, [.watermark wm]) := by
  induction ops with
  | nil => rfl
  | cons op ops ih => simp [pass, PhysicalOperator.pass, PhysicalOperator.passOne_watermark, ih]

/-- The events that come out do not depend on the watermarks. -/
theorem events_pass (ops : Chain U) (xs : List StreamElement) :
    events (ops.pass xs).2 = survivors ops (events xs) := by
  unfold survivors
  induction ops generalizing xs with
  | nil => exact (events_map_event _).symm
  | cons op ops ih =>
    show events (pass ops (op.pass xs).2).2 = events (pass ops (op.pass _).2).2
    rw [ih, (op.pass_events xs).2, ← ih]

theorem survivors_nil (ops : Chain U) : survivors ops [] = [] := by
  unfold survivors
  induction ops with
  | nil => rfl
  | cons op ops ih => exact ih

end Chain

/-! ## Timestamps -/

/-- A map whose results have the timestamps of their events, or a filter that leaves them alone. -/
def PhysicalOperator.KeepsTime {U : Type} : PhysicalOperator U → Prop
  | map op => ∀ u e, (op.func u e).1.timestamp = e.timestamp
  | filter op => ∀ u e, (op.pred u e).1.2.timestamp = e.timestamp
  | _ => False

/-- No event stands behind a watermark above it. -/
def InTime (xs : List StreamElement) : Prop :=
  xs.Pairwise fun x y => ∀ wm e, x = .watermark wm → y = .event e → wm.timestamp ≤ e.timestamp

namespace PhysicalOperator

variable {U : Type}

theorem KeepsTime.isElementwise {op : PhysicalOperator U} (h : op.KeepsTime) :
    op.isElementwise = true := by
  cases op with
  | map op => rfl
  | filter op => rfl
  | _ => cases h

theorem KeepsTime.passOne {op : PhysicalOperator U} (h : op.KeepsTime) (x : StreamElement) :
    (op.passOne x).1.KeepsTime ∧ ∀ y ∈ (op.passOne x).2,
      y.timestamp = x.timestamp ∧ ((∃ e, y = .event e) → ∃ e, x = .event e) := by
  cases x with
  | watermark wm =>
    rw [passOne_watermark]
    refine ⟨h, fun y hy => ?_⟩
    obtain rfl := List.mem_singleton.mp hy
    exact ⟨rfl, fun he => he⟩
  | event e =>
    cases op with
    | map op =>
      refine ⟨h, fun y hy => ?_⟩
      obtain rfl := List.mem_singleton.mp hy
      exact ⟨h _ _, fun _ => ⟨e, rfl⟩⟩
    | filter op =>
      refine ⟨h, fun y hy => ?_⟩
      unfold PhysicalOperator.passOne FilterPhysicalOperator.execute at hy
      by_cases hp : (op.pred op.captured e).1.1 = true
      · obtain rfl : y = .event (op.pred op.captured e).1.2 := by
          simpa [hp, nexts, Output.next?] using hy
        exact ⟨h _ _, fun _ => ⟨e, rfl⟩⟩
      · simp [hp, nexts] at hy
    | _ => cases h

/-- Every element that comes out has the timestamp of one that has gone in, an event that of an
event. -/
theorem KeepsTime.mem_pass {op : PhysicalOperator U} (h : op.KeepsTime) {xs : List StreamElement}
    {y : StreamElement} (hy : y ∈ (op.pass xs).2) :
    ∃ x ∈ xs, y.timestamp = x.timestamp ∧ ((∃ e, y = .event e) → ∃ e, x = .event e) := by
  induction xs generalizing op with
  | nil => cases hy
  | cons x xs ih =>
    obtain ⟨h', hone⟩ := h.passOne x
    rcases List.mem_append.mp hy with hy | hy
    · exact ⟨x, List.mem_cons_self, hone y hy⟩
    · obtain ⟨x', hx', hts⟩ := ih h' hy
      exact ⟨x', List.mem_cons_of_mem _ hx', hts⟩

theorem KeepsTime.inTime {op : PhysicalOperator U} (h : op.KeepsTime) {xs : List StreamElement}
    (hxs : InTime xs) : InTime (op.pass xs).2 := by
  induction xs generalizing op with
  | nil => exact List.Pairwise.nil
  | cons x xs ih =>
    obtain ⟨hx, hxs⟩ := List.pairwise_cons.mp hxs
    obtain ⟨h', hone⟩ := h.passOne x
    refine List.pairwise_append.mpr ⟨?_, ih h' hxs, fun y hy z hz wm e hwm he => ?_⟩
    · cases x with
      | watermark wm =>
        rw [passOne_watermark]
        exact List.pairwise_singleton _ _
      | event e =>
        have hno := op.passOne_event e
        refine List.pairwise_of_forall_mem_list fun y hy z _ wm e' hwm _ => ?_
        subst hwm
        have hmem := mem_watermarks.mpr hy
        rw [hno] at hmem
        cases hmem
    · subst hwm he
      cases x with
      | event e' =>
        have hmem := mem_watermarks.mpr hy
        rw [passOne_event] at hmem
        cases hmem
      | watermark wm' =>
        rw [passOne_watermark] at hy
        cases List.mem_singleton.mp hy
        obtain ⟨z, hz, hts, hev⟩ := h'.mem_pass hz
        obtain ⟨e', rfl⟩ := hev ⟨e, rfl⟩
        have := hx _ hz wm e' rfl rfl
        rwa [show e.timestamp = e'.timestamp from hts]

end PhysicalOperator

namespace Chain

variable {U : Type} {ops : Chain U}

theorem mem_pass (h : ∀ op ∈ ops, op.KeepsTime) {xs : List StreamElement} {y : StreamElement}
    (hy : y ∈ (ops.pass xs).2) : ∃ x ∈ xs, y.timestamp = x.timestamp := by
  induction ops generalizing xs with
  | nil => exact ⟨y, hy, rfl⟩
  | cons op ops ih =>
    obtain ⟨hop, hops⟩ := List.forall_mem_cons.mp h
    obtain ⟨z, hz, hts⟩ := ih hops hy
    obtain ⟨x, hx, hts', -⟩ := hop.mem_pass hz
    exact ⟨x, hx, hts.trans hts'⟩

theorem inTime_pass (h : ∀ op ∈ ops, op.KeepsTime) {xs : List StreamElement}
    (hxs : InTime xs) : InTime (ops.pass xs).2 := by
  induction ops generalizing xs with
  | nil => exact hxs
  | cons op ops ih =>
    obtain ⟨hop, hops⟩ := List.forall_mem_cons.mp h
    exact ih hops (hop.inTime hxs)

end Chain

end Xtream
