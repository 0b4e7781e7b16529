import Xtream.Engine.Calls
import Xtream.Engine.Threads

/-!
# Runs that do not return

An operator returns from `execute` and `close`, unless the loop of a time window goes on for ever.
`Hangs` says that a run comes to such a call: all calls before it have returned, whatever the fuel
is, and this one returns with no fuel. There is no other reason why a run should not return.

* `Chain.hangs_iff`, `Chain.closeHangs_iff`: a call of an operator of a chain;
* `Pipeline.hangs_iff`: a run, over any pulls.
-/

namespace Xtream

namespace PhysicalOperator

variable {U : Type}

/-- `execute` does not return from its own loop. -/
def Hangs (hasNext : Bool) (read : Option (Event Record)) (x : StreamElement)
    (op : PhysicalOperator U) : Prop := ∀ fuel, op.execute fuel hasNext read x = none

/-- `close` does not return from its own loop. -/
def CloseHangs (op : PhysicalOperator U) : Prop := ∀ fuel, op.close fuel = none

def isTimeWindow : PhysicalOperator U → Bool
  | timeWindow _ => true
  | _ => false

theorem Hangs.isTimeWindow {hasNext : Bool} {read : Option (Event Record)} {x : StreamElement}
    {op : PhysicalOperator U} (h : op.Hangs hasNext read x) : op.isTimeWindow = true := by
  cases op with
  | timeWindow op => rfl
  | _ => cases h 0

theorem CloseHangs.isTimeWindow {op : PhysicalOperator U} (h : op.CloseHangs) :
    op.isTimeWindow = true := by
  cases op with
  | timeWindow op => rfl
  | _ => cases h 0

theorem isTimeWindow_execute {op : PhysicalOperator U} {fuel : Nat} {hasNext : Bool}
    {read : Option (Event Record)} {x : StreamElement} {r : PhysicalOperator U × List Output}
    (h : op.execute fuel hasNext read x = some r) : r.1.isTimeWindow = op.isTimeWindow := by
  cases op with
  | timeWindow op =>
    obtain ⟨s, -, rfl⟩ := Option.map_eq_some_iff.mp h
    rfl
  | _ =>
    cases h
    rfl

theorem isTimeWindow_close {op : PhysicalOperator U} {fuel : Nat}
    {r : PhysicalOperator U × List Output} (h : op.close fuel = some r) :
    r.1.isTimeWindow = op.isTimeWindow := by
  cases op with
  | timeWindow op =>
    obtain ⟨s, -, rfl⟩ := Option.map_eq_some_iff.mp h
    rfl
  | _ =>
    cases h
    rfl

end PhysicalOperator

namespace Chain

variable {U : Type}

/-- `execute` of the first operator comes to a call that does not return: its own, or one that it
makes behind it, after the calls `before` have returned. -/
inductive Hangs : Option (Event Record) → Chain U → StreamElement → Prop
  | self {read : Option (Event Record)} {op : PhysicalOperator U} {rest : Chain U}
      {x : StreamElement} : op.Hangs (!rest.isEmpty) read x → Hangs read (op :: rest) x
  | behind {read : Option (Event Record)} {op op' : PhysicalOperator U} {rest rest' : Chain U}
      {x y : StreamElement} {before after outs : List Output} {fuel fuel' : Nat} :
      op.execute fuel (!rest.isEmpty) read x = some (op', before ++ .next y :: after) →
      deliver (execute fuel' none) rest before = some (rest', outs) → Hangs none rest' y →
      Hangs read (op :: rest) x

/-- `close` of the operator at a position comes to a call that does not return. -/
inductive CloseHangs : Nat → Chain U → Prop
  | self {op : PhysicalOperator U} {rest : Chain U} : op.CloseHangs → CloseHangs 0 (op :: rest)
  | behind {op op' : PhysicalOperator U} {rest rest' : Chain U} {y : StreamElement}
      {before after outs : List Output} {fuel fuel' : Nat} :
      op.close fuel = some (op', before ++ .next y :: after) →
      deliver (execute fuel' none) rest before = some (rest', outs) → Hangs none rest' y →
      CloseHangs 0 (op :: rest)
  | next {k : Nat} {op : PhysicalOperator U} {rest : Chain U} : CloseHangs k rest →
      CloseHangs (k + 1) (op :: rest)

/-- One of the closes of `n` operators, from a position on, comes to a call that does not return. -/
inductive ClosesHang : Nat → Nat → Chain U → Prop
  | close {n k : Nat} {ops : Chain U} : CloseHangs k ops → ClosesHang (n + 1) k ops
  | next {n k fuel : Nat} {ops : Chain U} {r : Chain U × List Output} :
      closeAt fuel k ops = some r → ClosesHang n (k + 1) r.1 → ClosesHang (n + 1) k ops

theorem deliverExecute_mono {n m : Nat} (hnm : n ≤ m) {ops : Chain U} {outs : List Output}
    {r : Chain U × List Output} (h : deliver (execute n none) ops outs = some r) :
    deliver (execute m none) ops outs = some r :=
  deliver_mono (fun _ _ _ ht => execute_mono hnm ht) h

/-- The calls behind an operator do not all return iff one of them does not, when those before
it have returned. -/
theorem deliver_never_iff {ops : Chain U} {outs : List Output} :
    (∀ fuel, deliver (execute fuel none) ops outs = none) ↔ ∃ before y after fuel r,
      outs = before ++ .next y :: after ∧ deliver (execute fuel none) ops before = some r ∧
        ∀ m, execute m none r.1 y = none := by
  constructor
  · intro h
    induction outs generalizing ops with
    | nil => cases h 0
    | cons o outs ih =>
      cases hn : o.next? with
      | some x =>
        obtain rfl := Output.eq_next hn
        simp only [deliver_of_next] at h
        rcases (While.never_bind_iff (fun hnm => execute_mono hnm) (fun hnm hs => by
          obtain ⟨t, ht, rfl⟩ := Option.map_eq_some_iff.mp hs
          rw [deliverExecute_mono hnm ht]
          rfl)).mp h with hx | ⟨fuel, r, hr, hrest⟩
        · exact ⟨[], x, outs, 0, (ops, []), rfl, rfl, hx⟩
        · obtain ⟨before, y, after, fuel', s, rfl, hs, hy⟩ := ih fun m =>
            Option.map_eq_none_iff.mp (hrest m)
          refine ⟨.next x :: before, y, after, max fuel fuel', (s.1, r.2 ++ s.2), rfl, ?_, hy⟩
          rw [deliver_of_next, execute_mono (Nat.le_max_left fuel fuel') hr, Option.bind_some,
            deliverExecute_mono (Nat.le_max_right fuel fuel') hs]
          rfl
      | none =>
        simp only [deliver_of_other hn, Option.map_eq_none_iff] at h
        obtain ⟨before, y, after, fuel, s, rfl, hs, hy⟩ := ih h
        refine ⟨o :: before, y, after, fuel, (s.1, o :: s.2), rfl, ?_, hy⟩
        rw [deliver_of_other hn, hs]
        rfl
  · rintro ⟨before, y, after, fuel, r, rfl, hr, hy⟩ m
    rw [deliver_append]
    cases hm : deliver (execute m none) ops before with
    | none => rfl
    | some s =>
      obtain rfl := While.unique_of_mono (f := fun n => deliver (execute n none) ops before)
        (fun hnm => deliverExecute_mono hnm) hm hr
      rw [Option.bind_some, deliver_of_next, hy m]
      rfl

/-- What `execute` and `close` of an operator have in common: their own loop, then the calls behind
it. -/
theorem own_never_iff {own : Nat → Option (PhysicalOperator U × List Output)}
    (hown : ∀ {n m : Nat} {r}, n ≤ m → own n = some r → own m = some r) {rest : Chain U} :
    (∀ fuel, ((own fuel).bind fun r =>
        (deliver (execute fuel none) rest r.2).map fun s => (r.1 :: s.1, s.2)) = none) ↔
      (∀ fuel, own fuel = none) ∨ ∃ op' before y after rest' outs fuel fuel',
        own fuel = some (op', before ++ .next y :: after) ∧
        deliver (execute fuel' none) rest before = some (rest', outs) ∧
        ∀ m, execute m none rest' y = none := by
  rw [While.never_bind_iff hown (fun hnm hs => by
    obtain ⟨t, ht, rfl⟩ := Option.map_eq_some_iff.mp hs
    rw [deliverExecute_mono hnm ht]
    rfl)]
  simp only [Option.map_eq_none_iff, deliver_never_iff]
  refine or_congr_right ⟨?_, ?_⟩
  · rintro ⟨fuel, ⟨op', outs⟩, hr, before, y, after, fuel', ⟨rest', outs'⟩, rfl, hs, hy⟩
    exact ⟨op', before, y, after, rest', outs', fuel, fuel', hr, hs, hy⟩
  · rintro ⟨op', before, y, after, rest', outs', fuel, fuel', hr, hs, hy⟩
    exact ⟨fuel, _, hr, before, y, after, fuel', _, rfl, hs, hy⟩

/-- `execute` does not return iff it comes to a call that does not return. -/
theorem hangs_iff {read : Option (Event Record)} {ops : Chain U} {x : StreamElement} :
    Hangs read ops x ↔ ∀ fuel, execute fuel read ops x = none := by
  constructor
  · intro h
    induction h with
    | @self read op rest x hop =>
      simp only [execute_cons]
      exact (own_never_iff fun hnm => PhysicalOperator.execute_mono hnm).mpr (Or.inl hop)
    | behind hr hs _ ih =>
      simp only [execute_cons]
      exact (own_never_iff fun hnm => PhysicalOperator.execute_mono hnm).mpr
        (Or.inr ⟨_, _, _, _, _, _, _, _, hr, hs, ih⟩)
  · -- the operators behind the first one are fewer
    generalize hn : ops.length = n
    induction n generalizing read ops x with
    | zero =>
      obtain rfl := List.eq_nil_of_length_eq_zero hn
      intro h
      cases h 0
    | succ n ih =>
      obtain ⟨op, rest, rfl⟩ := List.exists_cons_of_length_eq_add_one hn
      intro h
      simp only [execute_cons] at h
      rcases (own_never_iff fun hnm => PhysicalOperator.execute_mono hnm).mp h with
        hop | ⟨_, _, _, _, _, _, _, _, hr, hs, hy⟩
      · exact .self hop
      · exact .behind hr hs (ih ((deliver_length hs).trans (Nat.succ.inj hn)) hy)

/-- `close` does not return iff it comes to a call that does not return. -/
theorem closeHangs_iff {k : Nat} {ops : Chain U} :
    CloseHangs k ops ↔ ∀ fuel, closeAt fuel k ops = none := by
  constructor
  · intro h
    induction h with
    | self hop =>
      simp only [closeAt_zero]
      exact (own_never_iff fun hnm => PhysicalOperator.close_mono hnm).mpr (Or.inl hop)
    | behind hr hs hy =>
      simp only [closeAt_zero]
      exact (own_never_iff fun hnm => PhysicalOperator.close_mono hnm).mpr
        (Or.inr ⟨_, _, _, _, _, _, _, _, hr, hs, hangs_iff.mp hy⟩)
    | next _ ih =>
      intro fuel
      rw [closeAt_succ, ih fuel]
      rfl
  · intro h
    induction k generalizing ops with
    | zero =>
      cases ops with
      | nil => cases h 0
      | cons op rest =>
        simp only [closeAt_zero] at h
        rcases (own_never_iff fun hnm => PhysicalOperator.close_mono hnm).mp h with
          hop | ⟨_, _, _, _, _, _, _, _, hr, hs, hy⟩
        · exact .self hop
        · exact .behind hr hs (hangs_iff.mpr hy)
    | succ k ih =>
      cases ops with
      | nil => cases h 0
      | cons op rest =>
        simp only [closeAt_succ, Option.map_eq_none_iff] at h
        exact .next (ih h)

theorem closesHang_iff {n k : Nat} {ops : Chain U} :
    ClosesHang n k ops ↔ ∀ fuel, closeFrom fuel n k ops = none := by
  have hsplit : ∀ {n k} {ops : Chain U}, (∀ fuel, closeFrom fuel (n + 1) k ops = none) ↔
      (∀ fuel, closeAt fuel k ops = none) ∨ ∃ fuel r, closeAt fuel k ops = some r ∧
        ∀ m, closeFrom m n (k + 1) r.1 = none := by
    intro n k ops
    simp only [closeFrom_next]
    rw [While.never_bind_iff (fun hnm => closeAt_mono hnm) (fun hnm hs => by
      obtain ⟨t, ht, rfl⟩ := Option.map_eq_some_iff.mp hs
      rw [closeFrom_mono hnm ht]
      rfl)]
    simp only [Option.map_eq_none_iff]
  constructor
  · intro h
    induction h with
    | close hclose => exact hsplit.mpr (Or.inl (closeHangs_iff.mp hclose))
    | next hr _ ih => exact hsplit.mpr (Or.inr ⟨_, _, hr, ih⟩)
  · intro h
    induction n generalizing k ops with
    | zero => cases h 0
    | succ n ih =>
      rcases hsplit.mp h with hclose | ⟨fuel, r, hr, hrest⟩
      · exact .close (closeHangs_iff.mpr hclose)
      · exact .next hr (ih hrest)

/-! Only time windows hang. -/

/-- There is no time window. -/
def Plain (ops : Chain U) : Prop := ∀ op ∈ ops, op.isTimeWindow = false

theorem plain_cons {op : PhysicalOperator U} {rest : Chain U} :
    Plain (op :: rest) ↔ op.isTimeWindow = false ∧ Plain rest := List.forall_mem_cons

theorem Plain.execute {fuel : Nat} {read : Option (Event Record)} {ops : Chain U}
    {x : StreamElement} {r : Chain U × List Output} (h : Plain ops)
    (hr : execute fuel read ops x = some r) : Plain r.1 := by
  generalize hn : ops.length = n
  induction n generalizing read ops x r with
  | zero =>
    obtain rfl := List.eq_nil_of_length_eq_zero hn
    cases hr
    exact h
  | succ n ih =>
    obtain ⟨op, rest, rfl⟩ := List.exists_cons_of_length_eq_add_one hn
    obtain ⟨hop, hrest⟩ := plain_cons.mp h
    rw [execute_cons] at hr
    obtain ⟨s, hs, hr⟩ := Option.bind_eq_some_iff.mp hr
    obtain ⟨t, ht, rfl⟩ := Option.map_eq_some_iff.mp hr
    refine plain_cons.mpr ⟨(PhysicalOperator.isTimeWindow_execute hs).trans hop, ?_⟩
    have hinv := deliver_inv (P := fun ops => Plain ops ∧ ops.length = n) (Q := fun _ => True)
      (fun ops y u hops hu => ⟨⟨ih hops.1 hu hops.2, (execute_length hu).trans hops.2⟩,
        fun _ _ => trivial⟩)
      (fun _ _ _ => trivial) ⟨hrest, Nat.succ.inj hn⟩ ht
    exact hinv.1.1

theorem Plain.deliver {fuel : Nat} {ops : Chain U} {outs : List Output}
    {r : Chain U × List Output} (h : Plain ops)
    (hr : deliver (Chain.execute fuel none) ops outs = some r) : Plain r.1 :=
  (deliver_inv (P := Plain) (Q := fun _ => True)
    (fun _ _ _ hops ht => ⟨hops.execute ht, fun _ _ => trivial⟩) (fun _ _ _ => trivial) h hr).1

theorem Plain.closeAt {fuel k : Nat} {ops : Chain U} {r : Chain U × List Output} (h : Plain ops)
    (hr : closeAt fuel k ops = some r) : Plain r.1 := by
  induction k generalizing ops r with
  | zero =>
    cases ops with
    | nil =>
      cases hr
      exact h
    | cons op rest =>
      obtain ⟨hop, hrest⟩ := plain_cons.mp h
      obtain ⟨s, hs, hr⟩ := Option.bind_eq_some_iff.mp hr
      obtain ⟨t, ht, hr⟩ := Option.bind_eq_some_iff.mp hr
      cases hr
      exact plain_cons.mpr
        ⟨(PhysicalOperator.isTimeWindow_close hs).trans hop, hrest.deliver ht⟩
  | succ k ih =>
    cases ops with
    | nil =>
      cases hr
      exact h
    | cons op rest =>
      obtain ⟨hop, hrest⟩ := plain_cons.mp h
      obtain ⟨s, hs, hr⟩ := Option.bind_eq_some_iff.mp hr
      cases hr
      exact plain_cons.mpr ⟨hop, ih hrest hs⟩

theorem Hangs.not_plain {read : Option (Event Record)} {ops : Chain U} {x : StreamElement}
    (h : Hangs read ops x) : ¬ Plain ops := by
  induction h with
  | self hop =>
    intro hplain
    cases hop.isTimeWindow.symm.trans (plain_cons.mp hplain).1
  | behind _ hs _ ih => exact fun hplain => ih ((plain_cons.mp hplain).2.deliver hs)

theorem CloseHangs.not_plain {k : Nat} {ops : Chain U} (h : CloseHangs k ops) : ¬ Plain ops := by
  induction h with
  | self hop =>
    intro hplain
    cases hop.isTimeWindow.symm.trans (plain_cons.mp hplain).1
  | behind _ hs hy => exact fun hplain => hy.not_plain ((plain_cons.mp hplain).2.deliver hs)
  | next _ ih => exact fun hplain => ih (plain_cons.mp hplain).2

theorem ClosesHang.not_plain {n k : Nat} {ops : Chain U} (h : ClosesHang n k ops) :
    ¬ Plain ops := by
  induction h with
  | close hclose => exact hclose.not_plain
  | next hr _ ih => exact fun hplain => ih (hplain.closeAt hr)

end Chain

namespace Pipeline

variable {U : Type}

/-- A pull comes to a call that does not return. -/
inductive PullsHang (mode : Mode) : Chain U → List (Option (Event Record)) → Prop
  | execute {ops : Chain U} {read : Option (Event Record)} {reads : List (Option (Event Record))} :
      Chain.Hangs read ops dummy → PullsHang mode ops (read :: reads)
  | next {ops : Chain U} {read : Option (Event Record)} {reads : List (Option (Event Record))}
      {fuel : Nat} {r : Chain U × List Output} : Chain.execute fuel read ops dummy = some r →
      mode.stops r.1 = false → PullsHang mode r.1 reads → PullsHang mode ops (read :: reads)

/-- A run comes to a call of an operator that does not return: in a pull, or in a close behind the
loop. -/
def Hangs (mode : Mode) (ops : Chain U) (reads : List (Option (Event Record))) : Prop :=
  PullsHang mode ops reads ∨ ∃ fuel ops', pulls mode fuel ops reads = some ops' ∧
    Chain.ClosesHang ops'.length 0 ops'

theorem pulls_cons (mode : Mode) (fuel : Nat) (ops : Chain U) (read : Option (Event Record))
    (reads : List (Option (Event Record))) : pulls mode fuel ops (read :: reads) =
      (Chain.execute fuel read ops dummy).bind fun r =>
        if mode.stops r.1 then some r.1 else pulls mode fuel r.1 reads := rfl

theorem pulls_mono {mode : Mode} {n m : Nat} (hnm : n ≤ m) {ops ops' : Chain U}
    {reads : List (Option (Event Record))} (h : pulls mode n ops reads = some ops') :
    pulls mode m ops reads = some ops' := by
  induction reads generalizing ops with
  | nil => exact h
  | cons read reads ih =>
    rw [pulls_cons, Option.bind_eq_some_iff] at h ⊢
    obtain ⟨r, hr, h⟩ := h
    refine ⟨r, Chain.execute_mono hnm hr, ?_⟩
    split at h
    · rename_i hstop
      exact (if_pos hstop).trans h
    · rename_i hstop
      exact (if_neg hstop).trans (ih h)

/-- The loop does not end iff a pull comes to a call that does not return. -/
theorem pullsHang_iff {mode : Mode} {ops : Chain U} {reads : List (Option (Event Record))} :
    PullsHang mode ops reads ↔ ∀ fuel, pulls mode fuel ops reads = none := by
  have hsplit : ∀ {ops : Chain U} {read reads},
      (∀ fuel, pulls mode fuel ops (read :: reads) = none) ↔
        (∀ fuel, Chain.execute fuel read ops dummy = none) ∨ ∃ fuel r,
          Chain.execute fuel read ops dummy = some r ∧
            ∀ m, (if mode.stops r.1 then some r.1 else pulls mode m r.1 reads) = none := by
    intro ops read reads
    simp only [pulls_cons]
    refine While.never_bind_iff (fun hnm => Chain.execute_mono hnm) fun {r n m _} hnm hs => ?_
    by_cases hstop : mode.stops r.1 = true
    · exact (if_pos hstop).trans ((if_pos hstop).symm.trans hs)
    · exact (if_neg hstop).trans (pulls_mono hnm ((if_neg hstop).symm.trans hs))
  constructor
  · intro h
    induction h with
    | execute hexec => exact hsplit.mpr (Or.inl (Chain.hangs_iff.mp hexec))
    | next hr hstop _ ih =>
      refine hsplit.mpr (Or.inr ⟨_, _, hr, fun m => ?_⟩)
      rw [hstop]
      exact ih m
  · intro h
    induction reads generalizing ops with
    | nil => cases h 0
    | cons read reads ih =>
      rcases hsplit.mp h with hexec | ⟨fuel, r, hr, hrest⟩
      · exact .execute (Chain.hangs_iff.mpr hexec)
      · cases hstop : mode.stops r.1 with
        | true =>
          rw [hstop] at hrest
          cases hrest 0
        | false =>
          rw [hstop] at hrest
          exact .next hr hstop (ih hrest)

/-- More fuel does not change the chain at the end. -/
theorem runPulls_mono {mode : Mode} {n m : Nat} (hnm : n ≤ m) {ops ops' : Chain U}
    {reads : List (Option (Event Record))} (h : runPulls mode n ops reads = some ops') :
    runPulls mode m ops reads = some ops' := by
  obtain ⟨s, hs, h⟩ := Option.bind_eq_some_iff.mp h
  obtain ⟨t, ht, h⟩ := Option.bind_eq_some_iff.mp h
  rw [runPulls, pulls_mono hnm hs, Option.bind_eq_bind, Option.bind_some, Chain.closeAll,
    Chain.closeFrom_mono hnm ht]
  exact h

/-- A run does not return iff it comes to a call of an operator that does not return. -/
theorem hangs_iff {mode : Mode} {ops : Chain U} {reads : List (Option (Event Record))} :
    Hangs mode ops reads ↔ ∀ fuel, runPulls mode fuel ops reads = none := by
  have hrun : ∀ fuel, runPulls mode fuel ops reads = (pulls mode fuel ops reads).bind fun ops' =>
      (Chain.closeAll fuel ops').map Prod.fst := by
    intro fuel
    show (pulls mode fuel ops reads).bind _ = _
    refine congrArg _ (funext fun ops' => ?_)
    cases Chain.closeAll fuel ops' <;> rfl
  simp only [hrun]
  rw [While.never_bind_iff (fun hnm => pulls_mono hnm) (fun hnm hs => by
    obtain ⟨t, ht, rfl⟩ := Option.map_eq_some_iff.mp hs
    rw [Chain.closeAll, Chain.closeFrom_mono hnm ht]
    rfl)]
  simp only [Option.map_eq_none_iff, Hangs, pullsHang_iff, Chain.closesHang_iff, Chain.closeAll]

/-- Enough fuel gives the result, unless an operator's own call does not return. -/
theorem returns_iff {mode : Mode} {ops : Chain U} {reads : List (Option (Event Record))} :
    (∃ n, ∀ fuel, n ≤ fuel → (runPulls mode fuel ops reads).isSome = true) ↔
      ¬ Hangs mode ops reads := by
  rw [hangs_iff, not_forall]
  constructor
  · rintro ⟨n, hn⟩
    exact ⟨n, Option.isSome_iff_ne_none.mp (hn n (Nat.le_refl n))⟩
  · rintro ⟨n, hn⟩
    obtain ⟨ops', hops'⟩ := Option.ne_none_iff_exists'.mp hn
    refine ⟨n, fun fuel hfuel => ?_⟩
    rw [runPulls_mono hfuel hops']
    rfl

theorem plain_pulls {mode : Mode} {fuel : Nat} {ops ops' : Chain U}
    {reads : List (Option (Event Record))} (h : Chain.Plain ops)
    (hpulls : pulls mode fuel ops reads = some ops') : Chain.Plain ops' := by
  induction reads generalizing ops with
  | nil =>
    cases hpulls
    exact h
  | cons read reads ih =>
    obtain ⟨r, hr, hpulls⟩ := Option.bind_eq_some_iff.mp hpulls
    split at hpulls
    · cases hpulls
      exact h.execute hr
    · exact ih (h.execute hr) hpulls

theorem PullsHang.not_plain {mode : Mode} {ops : Chain U} {reads : List (Option (Event Record))}
    (h : PullsHang mode ops reads) : ¬ Chain.Plain ops := by
  induction h with
  | execute hexec => exact hexec.not_plain
  | next hr _ _ ih => exact fun hplain => ih (hplain.execute hr)

/-- A chain without a time window always returns. -/
theorem Hangs.not_plain {mode : Mode} {ops : Chain U} {reads : List (Option (Event Record))}
    (h : Hangs mode ops reads) : ¬ Chain.Plain ops := by
  rcases h with hpulls | ⟨fuel, ops', hops', hcloses⟩
  · exact hpulls.not_plain
  · exact fun hplain => hcloses.not_plain (plain_pulls hplain hops')

end Pipeline

end Xtream
