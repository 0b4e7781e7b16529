import Mathlib.Data.List.Induction

/-!
# Networks of deterministic processes over queues

The processes of a network take steps in any order. They communicate over channels, each a queue
that its writer closes at the end: a read waits for a value or for the end. A trace lists the steps
of a run, each with its process; `Consistent` says what the channels contribute, that the reads of a
channel return the values written to it in order, and the end only after all of them.

A process is deterministic when its next step depends on the values it has read only. Then the order
in which the processes take their steps does not matter:

* `local_initial`: in every run each process has done an initial part of what it does in a complete
  run;
* `local_eq`: two complete runs agree on what each process does.
-/

namespace KahnNetwork

universe u

/-- What a process does in one step. -/
inductive Act (V C O : Type u)
  /-- Read a value, or the end of the channel. -/
  | read (c : C) (v : Option V)
  | write (c : C) (v : V)
  | close (c : C)
  /-- A step that uses no channel. -/
  | out (o : O)

variable {V C O : Type u}

/-! ## Processes -/

/-- The steps from one state to another. -/
inductive Steps {P A : Type u} (step : P → A → P → Prop) : P → List A → P → Prop
  | nil (p : P) : Steps step p [] p
  | cons {p q r : P} {a : A} {as : List A} :
      step p a q → Steps step q as r → Steps step p (a :: as) r

section

variable {P A : Type u} {step : P → A → P → Prop}

theorem Steps.single {p q : P} {a : A} (h : step p a q) : Steps step p [a] q := .cons h (.nil q)

theorem Steps.append_iff {p r : P} {as bs : List A} :
    Steps step p (as ++ bs) r ↔ ∃ q, Steps step p as q ∧ Steps step q bs r := by
  induction as generalizing p with
  | nil =>
    constructor
    · exact fun h => ⟨p, .nil p, h⟩
    · rintro ⟨q, h, h'⟩
      cases h
      exact h'
  | cons a as ih =>
    constructor
    · intro h
      cases h with
      | cons hstep hrest =>
        obtain ⟨q, h1, h2⟩ := ih.mp hrest
        exact ⟨q, .cons hstep h1, h2⟩
    · rintro ⟨q, h, h'⟩
      cases h with
      | cons hstep hrest => exact .cons hstep (ih.mpr ⟨q, hrest, h'⟩)

theorem Steps.append {p q r : P} {as bs : List A} (h : Steps step p as q)
    (h' : Steps step q bs r) : Steps step p (as ++ bs) r := Steps.append_iff.mpr ⟨q, h, h'⟩

theorem Steps.cons_iff {p r : P} {a : A} {as : List A} :
    Steps step p (a :: as) r ↔ ∃ q, step p a q ∧ Steps step q as r := by
  constructor
  · intro h
    cases h with
    | cons hstep hrest => exact ⟨_, hstep, hrest⟩
  · rintro ⟨q, hstep, hrest⟩
    exact .cons hstep hrest

theorem Steps.mono {step' : P → A → P → Prop} (hstep : ∀ p a q, step p a q → step' p a q) {p q : P}
    {as : List A} (h : Steps step p as q) : Steps step' p as q := by
  induction h with
  | nil p => exact .nil p
  | cons h _ ih => exact .cons (hstep _ _ _ h) ih

/-- An invariant of the state and the steps that lead to it. -/
theorem Steps.history {I : List A → P → Prop}
    (hstep : ∀ as p a q, I as p → step p a q → I (as ++ [a]) q) {p q : P} {as bs : List A}
    (hp : I as p) (h : Steps step p bs q) : I (as ++ bs) q := by
  induction h generalizing as with
  | nil p => rwa [List.append_nil]
  | cons h _ ih =>
    have hrest := ih (hstep _ _ _ _ hp h)
    rwa [List.append_assoc, List.singleton_append] at hrest

/-- An invariant of the steps, with what it says about them. -/
theorem Steps.inv {I : P → Prop} {Q : A → Prop}
    (hstep : ∀ p a q, I p → step p a q → I q ∧ Q a) {p q : P} {as : List A} (hp : I p)
    (h : Steps step p as q) : I q ∧ ∀ a ∈ as, Q a := by
  induction h with
  | nil p => exact ⟨hp, List.forall_mem_nil _⟩
  | cons h _ ih =>
    obtain ⟨hq, ha⟩ := hstep _ _ _ hp h
    obtain ⟨hr, has⟩ := ih hq
    exact ⟨hr, List.forall_mem_cons.mpr ⟨ha, has⟩⟩

theorem Steps.invariant {I : P → Prop} (hstep : ∀ p a q, I p → step p a q → I q) {p q : P}
    {as : List A} (hp : I p) (h : Steps step p as q) : I q :=
  (Steps.inv (Q := fun _ => True) (fun p a q hI h => ⟨hstep p a q hI h, trivial⟩) hp h).1

/-- The steps meet a condition that the steps before them give. -/
theorem Steps.guard {Q : P → A → Prop} {p q : P} {as : List A} (h : Steps step p as q)
    (hQ : ∀ before a after r r', as = before ++ a :: after → Steps step p before r →
      step r a r' → Q r a) :
    Steps (fun p a q => step p a q ∧ Q p a) p as q := by
  induction h with
  | nil p => exact .nil p
  | @cons p r q a as hstep _ ih =>
    refine .cons ⟨hstep, hQ [] a as p r rfl (.nil p) hstep⟩ (ih ?_)
    intro before b after r₁ r₂ has hbefore hb
    exact hQ (a :: before) b after r₁ r₂ (congrArg (a :: ·) has) (.cons hstep hbefore) hb

/-- An invariant of all steps but one kind, over steps that are not of this kind. -/
theorem Steps.invariant_of_notMem {I : P → Prop} {x : A}
    (hstep : ∀ p a q, I p → step p a q → a ≠ x → I q) {p q : P} {as : List A} (hp : I p)
    (h : Steps step p as q) (hx : x ∉ as) : I q := by
  have hguarded := h.guard (Q := fun _ a => a ≠ x) fun before a after _ _ has _ _ hax => by
    subst hax
    exact hx (by simp [has])
  exact hguarded.invariant (fun p a q hI h => hstep p a q hI h.1 h.2) hp

end

/-- The next step depends on the value read only. -/
structure Deterministic {P : Type u} (step : P → Act V C O → P → Prop) : Prop where
  act : ∀ p a q b r, step p a q → step p b r →
    a = b ∨ ∃ c v w, a = .read c v ∧ b = .read c w
  state : ∀ p a q r, step p a q → step p a r → q = r

section

variable {P : Type u} {step : P → Act V C O → P → Prop}

theorem Steps.unique (hdet : Deterministic step) {p q r : P} {as : List (Act V C O)}
    (h : Steps step p as q) (h' : Steps step p as r) : q = r := by
  induction h with
  | nil p =>
    cases h'
    rfl
  | cons hstep _ ih =>
    cases h' with
    | cons hstep' hrest' =>
      rw [← hdet.state _ _ _ _ hstep hstep'] at hrest'
      exact ih hrest'

end

namespace Act

/-- The channel that a step uses. -/
def channel? : Act V C O → Option C
  | read c _ => some c
  | write c _ => some c
  | close c => some c
  | out _ => none

variable [DecidableEq C]

/-- The value written to a channel. -/
def written (c : C) : Act V C O → Option V
  | write c' v => if c' = c then some v else none
  | _ => none

/-- The value read from a channel. -/
def taken (c : C) : Act V C O → Option V
  | read c' v => if c' = c then v else none
  | _ => none

theorem written_eq_some {c : C} {a : Act V C O} {v : V} (h : a.written c = some v) :
    a = write c v := by
  cases a with
  | write c' w =>
    change (if c' = c then some w else none) = some v at h
    by_cases hc : c' = c
    · rw [if_pos hc] at h
      rw [hc, Option.some.inj h]
    · rw [if_neg hc] at h
      cases h
  | _ => cases h

theorem taken_eq_some {c : C} {a : Act V C O} {v : V} (h : a.taken c = some v) :
    a = read c (some v) := by
  cases a with
  | read c' w =>
    change (if c' = c then w else none) = some v at h
    by_cases hc : c' = c
    · rw [if_pos hc] at h
      rw [hc, h]
    · rw [if_neg hc] at h
      cases h
  | _ => cases h

theorem written_of_channel {c : C} {a : Act V C O} (h : a.channel? ≠ some c) :
    a.written c = none := by
  cases a with
  | write c' v => exact if_neg fun hc => h (congrArg some hc)
  | _ => rfl

theorem taken_of_channel {c : C} {a : Act V C O} (h : a.channel? ≠ some c) :
    a.taken c = none := by
  cases a with
  | read c' v => exact if_neg fun hc => h (congrArg some hc)
  | _ => rfl

end Act

variable {I : Type u}

/-- The steps of all processes, without their processes. -/
def acts (t : List (I × Act V C O)) : List (Act V C O) := t.map Prod.snd

@[simp] theorem acts_append (t t' : List (I × Act V C O)) : acts (t ++ t') = acts t ++ acts t' :=
  List.map_append

section

variable [DecidableEq I]

/-- The steps of one process. -/
def localActs (i : I) (t : List (I × Act V C O)) : List (Act V C O) :=
  (t.filter fun x => x.1 = i).map Prod.snd

@[simp] theorem localActs_append (i : I) (t t' : List (I × Act V C O)) :
    localActs i (t ++ t') = localActs i t ++ localActs i t' := by
  simp [localActs]

theorem localActs_self (i : I) (a : Act V C O) : localActs i [(i, a)] = [a] := by
  simp [localActs]

theorem localActs_other {i j : I} (h : j ≠ i) (a : Act V C O) : localActs i [(j, a)] = [] := by
  simp [localActs, h]

theorem mem_localActs {i : I} {a : Act V C O} {t : List (I × Act V C O)} :
    a ∈ localActs i t ↔ (i, a) ∈ t := by
  simp [localActs]

/-- A step of one process stands between its steps before and after. -/
theorem exists_split {i : I} {t : List (I × Act V C O)} {as bs : List (Act V C O)} {a : Act V C O}
    (h : localActs i t = as ++ a :: bs) :
    ∃ pre post, t = pre ++ (i, a) :: post ∧ localActs i pre = as ∧ localActs i post = bs := by
  unfold localActs at h
  obtain ⟨l₁, l₂, hl, rfl, h₂⟩ := List.map_eq_append_iff.mp h
  obtain ⟨⟨j, b⟩, l₃, rfl, hb, rfl⟩ := List.map_eq_cons_iff.mp h₂
  obtain ⟨pre, rest, rfl, hpre, hrest⟩ := List.filter_eq_append_iff.mp hl
  obtain ⟨mid, post, rfl, hmid, hj, hpost⟩ := List.filter_eq_cons_iff.mp hrest
  obtain rfl : j = i := by simpa using hj
  obtain rfl : b = a := hb
  refine ⟨pre ++ mid, post, by simp, ?_, ?_⟩
  · have hnil : mid.filter (fun x => x.1 = j) = [] := List.filter_eq_nil_iff.mpr hmid
    simp [localActs, hpre, hnil]
  · simp [localActs, hpost]

end

/-! ## Channels -/

/-- Each channel has one writer and one reader. -/
structure Wired (writer reader : C → I) (t : List (I × Act V C O)) : Prop where
  write : ∀ i c v, (i, Act.write c v) ∈ t → i = writer c
  close : ∀ i c, (i, Act.close c) ∈ t → i = writer c
  read : ∀ i c v, (i, Act.read c v) ∈ t → i = reader c

section

variable [DecidableEq C]

/-- The values written to a channel, in order. -/
def writes (c : C) (as : List (Act V C O)) : List V := as.filterMap (Act.written c)

/-- The values read from a channel, in order. -/
def reads (c : C) (as : List (Act V C O)) : List V := as.filterMap (Act.taken c)

@[simp] theorem writes_append (c : C) (as bs : List (Act V C O)) :
    writes c (as ++ bs) = writes c as ++ writes c bs := List.filterMap_append

@[simp] theorem reads_append (c : C) (as bs : List (Act V C O)) :
    reads c (as ++ bs) = reads c as ++ reads c bs := List.filterMap_append

@[simp] theorem writes_write (c : C) (v : V) :
    writes c [(.write c v : Act V C O)] = [v] := by
  simp [writes, Act.written]

@[simp] theorem reads_read (c : C) (v : Option V) :
    reads c [(.read c v : Act V C O)] = v.toList := by
  cases v <;> simp [reads, Act.taken]

@[simp] theorem writes_read (c c' : C) (v : Option V) :
    writes c [(.read c' v : Act V C O)] = [] := rfl
@[simp] theorem writes_close (c c' : C) : writes c [(.close c' : Act V C O)] = [] := rfl
@[simp] theorem reads_write (c c' : C) (v : V) : reads c [(.write c' v : Act V C O)] = [] := rfl
@[simp] theorem reads_close (c c' : C) : reads c [(.close c' : Act V C O)] = [] := rfl

theorem writes_initial (c : C) {as bs : List (Act V C O)} (h : as <+: bs) :
    writes c as <+: writes c bs := by
  obtain ⟨cs, rfl⟩ := h
  exact ⟨writes c cs, (writes_append c as cs).symm⟩

/-- What stands in an initial part stands in the whole. -/
theorem getElem?_of_initial {as bs : List V} (h : as <+: bs) {k : Nat} {v : V}
    (hv : as[k]? = some v) : bs[k]? = some v := by
  obtain ⟨cs, rfl⟩ := h
  rw [List.getElem?_append_left (List.getElem?_eq_some_iff.mp hv).1, hv]

/-- What a read returns, after the steps `before`: the next value written, or the end if the channel
has been closed and all values have been read. -/
def Returns (before : List (Act V C O)) (c : C) : Option V → Prop
  | some v => (writes c before)[(reads c before).length]? = some v
  | none => .close c ∈ before ∧ (reads c before).length = (writes c before).length

/-- What a channel holds after the steps: the values written and not read, and whether it has been
closed. -/
structure Holds (as : List (Act V C O)) (c : C) (queue : List V) (closed : Bool) : Prop where
  queue : reads c as ++ queue = writes c as
  closed : closed = true ↔ .close c ∈ as

section

variable {as : List (Act V C O)} {c : C} {queue : List V} {closed : Bool}

theorem Holds.start (c : C) : Holds ([] : List (Act V C O)) c [] false :=
  ⟨rfl, by simp⟩

/-- A step that uses another channel, or none. -/
theorem Holds.other (h : Holds as c queue closed) {a : Act V C O} (ha : a.channel? ≠ some c) :
    Holds (as ++ [a]) c queue closed := by
  have hw : writes c [a] = [] := List.filterMap_cons_none (Act.written_of_channel ha)
  have hr : reads c [a] = [] := List.filterMap_cons_none (Act.taken_of_channel ha)
  refine ⟨by simp [hw, hr, h.queue], h.closed.trans ?_⟩
  rw [List.mem_append, List.mem_singleton]
  refine ⟨Or.inl, fun hmem => hmem.resolve_right ?_⟩
  rintro rfl
  exact ha rfl

theorem Holds.write (h : Holds as c queue closed) (v : V) :
    Holds (as ++ [.write c v]) c (queue ++ [v]) closed := by
  refine ⟨?_, h.closed.trans (by simp)⟩
  simp [← h.queue]

theorem Holds.close (h : Holds as c queue closed) : Holds (as ++ [.close c]) c queue true := by
  refine ⟨?_, by simp⟩
  simp [← h.queue]

/-- A read of the next value. -/
theorem Holds.read {v : V} (h : Holds as c (v :: queue) closed) :
    Returns as c (some v) ∧ Holds (as ++ [.read c (some v)]) c queue closed := by
  refine ⟨?_, ?_, h.closed.trans (by simp)⟩
  · show (writes c as)[(reads c as).length]? = some v
    rw [← h.queue, List.getElem?_append_right (Nat.le_refl _), Nat.sub_self]
    rfl
  · simp [← h.queue]

/-- A read of the end. -/
theorem Holds.read_end (h : Holds as c [] true) :
    Returns as c none ∧ Holds (as ++ [.read c none]) c [] true := by
  refine ⟨⟨h.closed.mp rfl, ?_⟩, ?_, h.closed.trans (by simp)⟩
  · rw [← h.queue, List.append_nil]
  · simp [← h.queue]

end

/-- Every read of the trace returns what the channel holds. -/
def Consistent (t : List (I × Act V C O)) : Prop :=
  ∀ pre i c v post, t = pre ++ (i, .read c v) :: post → Returns (acts pre) c v

theorem Consistent.initial {t t' : List (I × Act V C O)} (h : Consistent (t ++ t')) :
    Consistent t := by
  intro pre i c v post hsplit
  exact h pre i c v (post ++ t') (by rw [hsplit, List.append_assoc, List.cons_append])

/-- One more step. -/
theorem Consistent.snoc {t : List (I × Act V C O)} (h : Consistent t) {i : I} {a : Act V C O}
    (ha : ∀ c v, a = .read c v → Returns (acts t) c v) : Consistent (t ++ [(i, a)]) := by
  intro pre j c v post hsplit
  rcases List.eq_nil_or_concat post with rfl | ⟨post, x, rfl⟩
  · obtain ⟨rfl, hx⟩ := List.append_inj' hsplit rfl
    cases hx
    exact ha c v rfl
  · rw [List.concat_eq_append, ← List.cons_append, ← List.append_assoc] at hsplit
    obtain ⟨rfl, -⟩ := List.append_inj' hsplit rfl
    exact h pre j c v post rfl

theorem Consistent.last {t : List (I × Act V C O)} {i : I} {c : C} {v : Option V}
    (h : Consistent (t ++ [(i, .read c v)])) : Returns (acts t) c v := h t i c v [] rfl

/-- Nothing is written to a channel after its close. -/
def Sealed (as : List (Act V C O)) : Prop :=
  ∀ pre c post, as = pre ++ .close c :: post → writes c post = []

theorem Sealed.writes_eq {as bs : List (Act V C O)} (h : Sealed (as ++ bs)) {c : C}
    (hc : .close c ∈ as) : writes c (as ++ bs) = writes c as := by
  obtain ⟨pre, post, rfl⟩ := List.append_of_mem hc
  have hrest := h pre c (post ++ bs) (by simp)
  rw [writes_append, List.append_eq_nil_iff] at hrest
  rw [writes_append, hrest.2, List.append_nil]

section

variable [DecidableEq I] {writer reader : C → I} {t : List (I × Act V C O)}

/-- What is written to a channel is what its writer writes. -/
theorem Wired.writes_local (h : Wired writer reader t) (c : C) :
    writes c (localActs (writer c) t) = writes c (acts t) := by
  induction t with
  | nil => rfl
  | cons x t ih =>
    obtain ⟨i, a⟩ := x
    have ih' := ih ⟨fun i c v hm => h.write i c v (List.mem_cons_of_mem _ hm),
      fun i c hm => h.close i c (List.mem_cons_of_mem _ hm),
      fun i c v hm => h.read i c v (List.mem_cons_of_mem _ hm)⟩
    rw [← List.singleton_append, localActs_append, acts_append, writes_append, writes_append, ih']
    refine congrArg (· ++ writes c (acts t)) ?_
    by_cases hi : i = writer c
    · rw [hi, localActs_self]
      rfl
    · rw [localActs_other hi]
      cases hw : a.written c with
      | none => simp [writes, acts, hw]
      | some v =>
        rw [Act.written_eq_some hw] at h
        exact absurd (h.write i c v List.mem_cons_self) hi

/-- What is read from a channel is what its reader reads. -/
theorem Wired.reads_local (h : Wired writer reader t) (c : C) :
    reads c (localActs (reader c) t) = reads c (acts t) := by
  induction t with
  | nil => rfl
  | cons x t ih =>
    obtain ⟨i, a⟩ := x
    have ih' := ih ⟨fun i c v hm => h.write i c v (List.mem_cons_of_mem _ hm),
      fun i c hm => h.close i c (List.mem_cons_of_mem _ hm),
      fun i c v hm => h.read i c v (List.mem_cons_of_mem _ hm)⟩
    rw [← List.singleton_append, localActs_append, acts_append, reads_append, reads_append, ih']
    refine congrArg (· ++ reads c (acts t)) ?_
    by_cases hi : i = reader c
    · rw [hi, localActs_self]
      rfl
    · rw [localActs_other hi]
      cases hw : a.taken c with
      | none => simp [reads, acts, hw]
      | some v =>
        rw [Act.taken_eq_some hw] at h
        exact absurd (h.read i c (some v) List.mem_cons_self) hi

omit [DecidableEq C] in
/-- A channel that has been closed has been closed by its writer. -/
theorem Wired.close_local (h : Wired writer reader t) {c : C} (hc : .close c ∈ acts t) :
    .close c ∈ localActs (writer c) t := by
  obtain ⟨⟨i, a⟩, hm, rfl⟩ := List.mem_map.mp hc
  rw [← h.close i c hm]
  exact mem_localActs.mpr hm

end

/-! ## Runs of a network -/

section

variable [DecidableEq I] {P : Type u} {step : P → Act V C O → P → Prop} {writer reader : C → I}
  {start end₁ end₂ : I → P} {t u : List (I × Act V C O)}

omit [DecidableEq C] in
/-- A run in which each process has done an initial part of another one. -/
theorem Wired.of_initial (hwired : Wired writer reader u)
    (hpart : ∀ i, localActs i t <+: localActs i u) : Wired writer reader t := by
  refine ⟨fun j c v hm => ?_, fun j c hm => ?_, fun j c v hm => ?_⟩
  · exact hwired.write j c v (mem_localActs.mp ((hpart j).subset (mem_localActs.mpr hm)))
  · exact hwired.close j c (mem_localActs.mp ((hpart j).subset (mem_localActs.mpr hm)))
  · exact hwired.read j c v (mem_localActs.mp ((hpart j).subset (mem_localActs.mpr hm)))

/-- A closed channel is complete: after its close there is nothing more in the other run. -/
theorem writes_closed (hwired : Wired writer reader u) (hsealed : ∀ i, Sealed (localActs i u))
    (hpart : ∀ i, localActs i t <+: localActs i u) {c : C} (hc : .close c ∈ acts t) :
    writes c (acts u) = writes c (acts t) := by
  have hwired_t := hwired.of_initial hpart
  obtain ⟨more, hmore⟩ := hpart (writer c)
  have h := (hmore ▸ hsealed (writer c)).writes_eq (hwired_t.close_local hc)
  rw [hmore, hwired.writes_local, hwired_t.writes_local] at h
  exact h

/-- Reads at the same point of a process return the same, in a run in which each process has done
an initial part of the other, complete one. -/
theorem returns_eq (hu : Consistent u) (hwired : Wired writer reader u)
    (hsealed : ∀ i, Sealed (localActs i u)) (hpart : ∀ i, localActs i t <+: localActs i u) {i : I}
    {c : C} {v w : Option V} {rest : List (Act V C O)} (hv : Returns (acts t) c v)
    (hw : localActs i u = localActs i t ++ .read c w :: rest) : v = w := by
  obtain ⟨pre, post, hsplit, hpre, -⟩ := exists_split hw
  have hmem : (i, Act.read c w) ∈ u := by
    rw [hsplit]
    exact List.mem_append_right _ List.mem_cons_self
  have hi := hwired.read i c w hmem
  have hret := hu pre i c w post hsplit
  have hpart_pre : ∀ i, localActs i pre <+: localActs i u := fun i => by
    rw [hsplit, localActs_append]
    exact List.prefix_append _ _
  have hwired_pre := hwired.of_initial hpart_pre
  have hwired_t := hwired.of_initial hpart
  -- as many values have been read before
  have hcount : reads c (acts t) = reads c (acts pre) := by
    rw [← hwired_t.reads_local, ← hwired_pre.reads_local, ← hi, hpre]
  have htu : writes c (acts t) <+: writes c (acts u) := by
    rw [← hwired_t.writes_local, ← hwired.writes_local]
    exact writes_initial c (hpart _)
  have hpu : writes c (acts pre) <+: writes c (acts u) := by
    rw [hsplit, acts_append]
    exact writes_initial c (List.prefix_append _ _)
  cases v with
  | some x =>
    have hx : (writes c (acts t))[(reads c (acts t)).length]? = some x := hv
    have hxu := getElem?_of_initial htu hx
    cases w with
    | some y =>
      have hy : (writes c (acts pre))[(reads c (acts pre)).length]? = some y := hret
      have hyu := getElem?_of_initial hpu hy
      rw [← hcount, hxu] at hyu
      exact hyu
    | none =>
      obtain ⟨hc, hlen⟩ := hret
      rw [writes_closed hwired hsealed hpart_pre hc, hcount, hlen,
        List.getElem?_eq_none (Nat.le_refl _)] at hxu
      cases hxu
  | none =>
    obtain ⟨hc, hlen⟩ := hv
    cases w with
    | some y =>
      have hy : (writes c (acts pre))[(reads c (acts pre)).length]? = some y := hret
      have hyu := getElem?_of_initial hpu hy
      rw [writes_closed hwired hsealed hpart hc, ← hcount, hlen,
        List.getElem?_eq_none (Nat.le_refl _)] at hyu
      cases hyu
    | none => rfl

/-- **Schedules agree.** In every run each process has done an initial part of what it does in a
complete run. -/
theorem local_initial (hdet : Deterministic step) (hu : Consistent u)
    (hwired : Wired writer reader u) (hsealed : ∀ i, Sealed (localActs i u))
    (hsteps_u : ∀ i, Steps step (start i) (localActs i u) (end₂ i))
    (hcomplete : ∀ i a p, ¬ step (end₂ i) a p) (ht : Consistent t)
    (hsteps_t : ∀ i, Steps step (start i) (localActs i t) (end₁ i)) (i : I) :
    localActs i t <+: localActs i u := by
  induction t using List.reverseRecOn generalizing end₁ i with
  | nil => exact List.nil_prefix
  | append_singleton t x ih =>
    obtain ⟨j, a⟩ := x
    have hbefore : ∀ i, ∃ p, Steps step (start i) (localActs i t) p := fun i => by
      obtain ⟨p, hp, -⟩ := Steps.append_iff.mp (localActs_append i t [(j, a)] ▸ hsteps_t i)
      exact ⟨p, hp⟩
    have hpart := @ih (fun i => (hbefore i).choose) ht.initial fun i => (hbefore i).choose_spec
    rw [localActs_append]
    by_cases hi : j = i
    · subst hi
      obtain ⟨rest, hrest⟩ := hpart j
      obtain ⟨p, hp, hlast⟩ := Steps.append_iff.mp (localActs_append j t [(j, a)] ▸ hsteps_t j)
      rw [localActs_self] at hlast ⊢
      obtain ⟨q, hq, hmore⟩ := Steps.append_iff.mp (hrest ▸ hsteps_u j)
      obtain rfl := Steps.unique hdet hp hq
      obtain ⟨_, hstep, -⟩ := Steps.cons_iff.mp hlast
      cases rest with
      | nil =>
        cases hmore
        exact absurd hstep (hcomplete j _ _)
      | cons b rest =>
        obtain ⟨_, hstep', -⟩ := Steps.cons_iff.mp hmore
        have hab : a = b := by
          rcases hdet.act _ _ _ _ _ hstep hstep' with rfl | ⟨c, v, w, rfl, rfl⟩
          · rfl
          · rw [returns_eq hu hwired hsealed hpart ht.last hrest.symm]
        exact ⟨rest, by rw [← hrest, hab, List.append_assoc, List.singleton_append]⟩
    · rw [localActs_other hi, List.append_nil]
      exact hpart i

/-- **Complete runs agree** on what each process does. -/
theorem local_eq (hdet : Deterministic step) (hu : Consistent u)
    (hwired : Wired writer reader u) (hsealed : ∀ i, Sealed (localActs i u))
    (hsteps_u : ∀ i, Steps step (start i) (localActs i u) (end₂ i))
    (hcomplete : ∀ i a p, ¬ step (end₂ i) a p) (ht : Consistent t)
    (hsteps_t : ∀ i, Steps step (start i) (localActs i t) (end₁ i))
    (hcomplete_t : ∀ i a p, ¬ step (end₁ i) a p) (i : I) : localActs i t = localActs i u := by
  obtain ⟨rest, hrest⟩ :=
    local_initial hdet hu hwired hsealed hsteps_u hcomplete ht hsteps_t i
  obtain ⟨q, hq, hmore⟩ := Steps.append_iff.mp (hrest ▸ hsteps_u i)
  obtain rfl := Steps.unique hdet (hsteps_t i) hq
  cases rest with
  | nil => rw [← hrest, List.append_nil]
  | cons a rest =>
    obtain ⟨p, hstep, -⟩ := Steps.cons_iff.mp hmore
    exact absurd hstep (hcomplete_t i _ _)

end

end

end KahnNetwork
