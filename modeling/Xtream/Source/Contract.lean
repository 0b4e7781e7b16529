import Xtream.Source.Invariant

/-!
# What the source sends

`schedule` gives the actions of a run from the events alone: a watermark is attempted after every
`period` events and at the end, and sends the maximum so far less the lateness if it has grown.

* `finish_eq_schedule`: the actions of the operator are those of the schedule;
* `schedule_split`: what stands at an attempt, and what follows it;
* `sent_increasing`, `sent_max`: the watermarks strictly increase, and reach the overall maximum;
* `source_contract`: the six parts of the source's contract.
-/

namespace Xtream

/-! ## Elements, events and watermarks of a list of actions -/

section

variable (as bs : List SourceAction)

@[simp] theorem elements_append : elements (as ++ bs) = elements as ++ elements bs :=
  List.filterMap_append
@[simp] theorem forwarded_append : forwarded (as ++ bs) = forwarded as ++ forwarded bs :=
  List.filterMap_append
@[simp] theorem sent_append : sent (as ++ bs) = sent as ++ sent bs := List.filterMap_append

@[simp] theorem elements_nil : elements [] = [] := rfl
@[simp] theorem forwarded_nil : forwarded [] = [] := rfl
@[simp] theorem sent_nil : sent [] = [] := rfl
@[simp] theorem elements_forward (e : Event Record) :
    elements (.forward e :: as) = .event e :: elements as := rfl
@[simp] theorem forwarded_forward (e : Event Record) :
    forwarded (.forward e :: as) = e :: forwarded as := rfl
@[simp] theorem sent_forward (e : Event Record) : sent (.forward e :: as) = sent as := rfl
@[simp] theorem elements_attempt_none : elements (.attempt none :: as) = elements as := rfl
@[simp] theorem elements_attempt_some (wm : Watermark) :
    elements (.attempt (some wm) :: as) = .watermark wm :: elements as := rfl
@[simp] theorem forwarded_attempt (w : Option Watermark) :
    forwarded (.attempt w :: as) = forwarded as := rfl
@[simp] theorem sent_attempt_none : sent (.attempt none :: as) = sent as := rfl
@[simp] theorem sent_attempt_some (wm : Watermark) :
    sent (.attempt (some wm) :: as) = wm :: sent as := rfl

theorem events_elements : events (elements as) = forwarded as := by
  induction as with
  | nil => rfl
  | cons a as ih =>
    cases a with
    | forward e => simp [ih]
    | attempt w => cases w <;> simp [ih]

theorem watermarks_elements : watermarks (elements as) = sent as := by
  induction as with
  | nil => rfl
  | cons a as ih =>
    cases a with
    | forward e => simp [ih]
    | attempt w => cases w <;> simp [ih]

end

namespace SourcePhysicalOperator

variable {U : Type}

/-! ## The schedule -/

/-- The watermark that an attempt after the events `es` sends. -/
def attemptAfter (lateness interval sourceId : UInt64) (es : List (Event Record)) :
    Option Watermark :=
  watermarkAfter lateness sourceId (attempted interval es.dropLast) es

/-- The actions on the events, after the events `history`, and at `close`. -/
def schedule (lateness interval sourceId : UInt64) (history : List (Event Record)) :
    List (Event Record) → List SourceAction
  | [] =>
    if period interval ∣ history.length then []
    else [.attempt (attemptAfter lateness interval sourceId history)]
  | e :: es =>
    .forward e ::
      ((if period interval ∣ history.length + 1 then
          [.attempt (attemptAfter lateness interval sourceId (history ++ [e]))] else []) ++
        schedule lateness interval sourceId (history ++ [e]) es)

/-- Between two attempts the events before the last attempt stay the same. -/
theorem attempted_dropLast {interval : UInt64} {es : List (Event Record)}
    (h : ¬ period interval ∣ es.length) :
    attempted interval es.dropLast = attempted interval es := by
  rcases List.eq_nil_or_concat es with rfl | ⟨es, e, rfl⟩
  · rfl
  · rw [List.concat_eq_append] at h ⊢
    rw [List.dropLast_concat, attempted_append_of_not_dvd]
    simpa using h

/-- The operator follows the schedule. -/
theorem finish_eq_schedule {s : SourcePhysicalOperator U} {history : List (Event Record)}
    (h : s.Tracks history) (es : List (Event Record)) :
    finish s es =
      schedule s.allowedLateness s.watermarkInterval s.sourceId history es := by
  induction es generalizing s history with
  | nil =>
    rw [finish, close_spec h, schedule]
    by_cases hdvd : period s.watermarkInterval ∣ history.length
    · rw [if_pos hdvd, if_pos hdvd]
    · rw [if_neg hdvd, if_neg hdvd, attemptAfter, attempted_dropLast hdvd]
  | cons e es ih =>
    obtain ⟨htracks, hconfig, hactions⟩ := forward_spec h e
    rw [finish, hactions, ih htracks, hconfig.allowedLateness, hconfig.watermarkInterval,
      hconfig.sourceId, schedule, attemptAfter, List.dropLast_concat, List.cons_append]

section

variable {lateness interval sourceId : UInt64} {history es : List (Event Record)}

theorem forwarded_schedule : forwarded (schedule lateness interval sourceId history es) = es := by
  induction es generalizing history with
  | nil =>
    unfold schedule
    split <;> simp
  | cons e es ih =>
    unfold schedule
    split <;> simp [ih]

/-- At an attempt: which watermark it sends, and what follows. -/
theorem schedule_split {pre post : List SourceAction} {w : Option Watermark}
    (h : schedule lateness interval sourceId history es = pre ++ .attempt w :: post) :
    w = attemptAfter lateness interval sourceId (history ++ forwarded pre) ∧
      (post = [] ∨ ∃ rest, es = forwarded pre ++ rest ∧
        period interval ∣ (history ++ forwarded pre).length ∧
        post = schedule lateness interval sourceId (history ++ forwarded pre) rest) := by
  induction es generalizing history pre with
  | nil =>
    unfold schedule at h
    split at h
    · simp at h
    · cases pre with
      | nil =>
        injection h with hw hpost
        injection hw with hw
        exact ⟨by simpa using hw.symm, Or.inl hpost.symm⟩
      | cons a pre => simp at h
  | cons e es ih =>
    unfold schedule at h
    cases pre with
    | nil => simp at h
    | cons a pre =>
      injection h with ha h
      subst ha
      have hcons : ∀ as : List SourceAction, history ++ forwarded (.forward e :: as) =
          (history ++ [e]) ++ forwarded as := by simp
      split at h
      · rename_i hdvd
        cases pre with
        | nil =>
          injection h with hw hpost
          injection hw with hw
          refine ⟨by simpa using hw.symm, Or.inr ⟨es, rfl, ?_, ?_⟩⟩
          · simpa using hdvd
          · simpa using hpost.symm
        | cons a pre =>
          injection h with ha h
          subst ha
          rw [hcons, forwarded_attempt]
          obtain ⟨hw, hpost⟩ := ih h
          refine ⟨hw, hpost.imp_right ?_⟩
          rintro ⟨rest, rfl, hrest⟩
          exact ⟨rest, rfl, hrest⟩
      · rw [List.nil_append] at h
        rw [hcons]
        obtain ⟨hw, hpost⟩ := ih h
        refine ⟨hw, hpost.imp_right ?_⟩
        rintro ⟨rest, rfl, hrest⟩
        exact ⟨rest, rfl, hrest⟩

theorem mem_sent {as : List SourceAction} {wm : Watermark} :
    wm ∈ sent as ↔ .attempt (some wm) ∈ as := by
  unfold sent
  rw [List.mem_filterMap]
  constructor
  · rintro ⟨a, ha, hwm⟩
    cases a with
    | forward e => cases hwm
    | attempt w =>
      cases hwm
      exact ha
  · exact fun h => ⟨_, h, rfl⟩

/-- A watermark is the maximum of the events before it, less the lateness. -/
theorem timestamp_of_split {pre post : List SourceAction} {wm : Watermark}
    (h : schedule lateness interval sourceId history es = pre ++ .attempt (some wm) :: post) :
    wm.timestamp.toNat + lateness.toNat = maxTime (history ++ forwarded pre) :=
  (watermarkAfter_eq_some (schedule_split h).1.symm).1

/-- No watermark is above the overall maximum less the lateness. -/
theorem timestamp_le {wm : Watermark}
    (h : wm ∈ sent (schedule lateness interval sourceId history es)) :
    wm.timestamp.toNat + lateness.toNat ≤ maxTime (history ++ es) := by
  obtain ⟨pre, post, hsplit⟩ := List.append_of_mem (mem_sent.mp h)
  rw [timestamp_of_split hsplit]
  have hes : es = forwarded pre ++ forwarded post := by
    rw [← @forwarded_schedule lateness interval sourceId history es, hsplit]
    simp
  rw [hes, ← List.append_assoc]
  exact maxTime_mono (List.prefix_append _ _)

/-- The watermarks of the schedule are above the one of the last attempt before it. -/
theorem sent_gt {wm : Watermark}
    (h : wm ∈ sent (schedule lateness interval sourceId history es))
    (hne : attempted interval history ≠ [])
    (hle : lateness.toNat ≤ maxTime (attempted interval history)) :
    maxTime (attempted interval history) < wm.timestamp.toNat + lateness.toNat := by
  induction es generalizing history with
  | nil =>
    unfold schedule at h
    split at h
    · simp at h
    · rename_i hdvd
      rw [← attempted_dropLast hdvd] at hne hle ⊢
      rw [mem_sent, List.mem_singleton] at h
      injection h with h
      obtain ⟨hts, hgrown⟩ := watermarkAfter_eq_some h.symm
      rw [hts]
      exact hgrown hne hle
  | cons e es ih =>
    unfold schedule at h
    rw [sent_forward, sent_append, List.mem_append] at h
    split at h
    · rename_i hdvd
      have hall : attempted interval (history ++ [e]) = history ++ [e] :=
        attempted_of_dvd (by simpa using hdvd)
      have hmono := maxTime_mono ((attempted_initial interval history).trans
        (List.prefix_append history [e]))
      rcases h with h | h
      · rw [mem_sent, List.mem_singleton] at h
        injection h with h
        obtain ⟨hts, hgrown⟩ := watermarkAfter_eq_some h.symm
        rw [List.dropLast_concat] at hgrown
        rw [hts]
        exact hgrown hne hle
      · have := ih h (by rw [hall]; simp) (by rw [hall]; omega)
        rw [hall] at this
        omega
    · rename_i hdvd
      rw [sent_nil, List.mem_nil_iff, false_or] at h
      rw [← attempted_append_of_not_dvd (e := e) hdvd] at hne hle ⊢
      exact ih h hne hle

/-- The watermarks strictly increase. -/
theorem sent_increasing :
    (sent (schedule lateness interval sourceId history es)).Pairwise
      (·.timestamp < ·.timestamp) := by
  induction es generalizing history with
  | nil =>
    unfold schedule
    split
    · exact List.Pairwise.nil
    · cases attemptAfter lateness interval sourceId history with
      | none => exact List.Pairwise.nil
      | some wm => exact List.pairwise_singleton _ _
  | cons e es ih =>
    unfold schedule
    rw [sent_forward, sent_append]
    split
    · rename_i hdvd
      have hall : attempted interval (history ++ [e]) = history ++ [e] :=
        attempted_of_dvd (by simpa using hdvd)
      cases hw : attemptAfter lateness interval sourceId (history ++ [e]) with
      | none => exact ih
      | some wm =>
        refine List.pairwise_cons.mpr ⟨fun wm' hwm' => ?_, ih⟩
        have hts := (watermarkAfter_eq_some hw).1
        have hgt := sent_gt hwm' (by rw [hall]; simp) (by rw [hall]; omega)
        rw [hall] at hgt
        rw [UInt64.lt_iff_toNat_lt]
        omega
    · exact ih

/-- An attempt that sends nothing although the maximum is not below the lateness: the previous
attempt has seen the same maximum. -/
theorem attemptAfter_eq_none (h : attemptAfter lateness interval sourceId es = none)
    (hle : lateness.toNat ≤ maxTime es) :
    attempted interval es.dropLast ≠ [] ∧
      maxTime (attempted interval es.dropLast) = maxTime es := by
  unfold attemptAfter watermarkAfter at h
  split at h
  · cases h
  · rename_i hno
    have hmono := maxTime_mono ((attempted_initial interval es.dropLast).trans
      es.dropLast_prefix)
    rw [not_and, Classical.not_imp, Classical.not_imp] at hno
    obtain ⟨hne, -, hnot⟩ := hno hle
    exact ⟨hne, by omega⟩

/-- The last watermark: one is sent at the overall maximum, unless the last attempt before the
schedule has seen it. -/
theorem sent_max (hne : history ++ es ≠ []) (hle : lateness.toNat ≤ maxTime (history ++ es)) :
    (∃ wm ∈ sent (schedule lateness interval sourceId history es),
        wm.timestamp.toNat + lateness.toNat = maxTime (history ++ es)) ∨
      (attempted interval history ≠ [] ∧
        maxTime (attempted interval history) = maxTime (history ++ es)) := by
  induction es generalizing history with
  | nil =>
    rw [List.append_nil] at hne hle ⊢
    unfold schedule
    split
    · rename_i hdvd
      rw [attempted_of_dvd hdvd]
      exact Or.inr ⟨hne, rfl⟩
    · rename_i hdvd
      cases hw : attemptAfter lateness interval sourceId history with
      | none =>
        rw [← attempted_dropLast hdvd]
        exact Or.inr (attemptAfter_eq_none hw hle)
      | some wm => exact Or.inl ⟨wm, List.mem_cons_self, (watermarkAfter_eq_some hw).1⟩
  | cons e es ih =>
    have hassoc : history ++ e :: es = (history ++ [e]) ++ es := by simp
    rw [hassoc] at hle ⊢
    unfold schedule
    rw [sent_forward, sent_append]
    rcases ih (by simp) hle with ⟨wm, hwm, hts⟩ | ⟨hne', hmax⟩
    · exact Or.inl ⟨wm, List.mem_append_right _ hwm, hts⟩
    · split
      · rename_i hdvd
        have hall : attempted interval (history ++ [e]) = history ++ [e] :=
          attempted_of_dvd (by simpa using hdvd)
        rw [hall] at hmax
        cases hw : attemptAfter lateness interval sourceId (history ++ [e]) with
        | none =>
          have := attemptAfter_eq_none hw (by omega)
          rw [List.dropLast_concat] at this
          exact Or.inr ⟨this.1, by omega⟩
        | some wm =>
          have hts := (watermarkAfter_eq_some hw).1
          exact Or.inl ⟨wm, List.mem_append_left _ List.mem_cons_self, by omega⟩
      · rename_i hdvd
        rw [← attempted_append_of_not_dvd (e := e) hdvd]
        exact Or.inr ⟨hne', hmax⟩

/-- The events forwarded before the next attempt fill at most a period. -/
theorem gap_le {mid post : List SourceAction} {w : Option Watermark}
    (h : schedule lateness interval sourceId history es = mid ++ .attempt w :: post)
    (hmid : ∀ a ∈ mid, ∃ e, a = .forward e) :
    history.length % period interval + mid.length ≤ period interval := by
  induction es generalizing history mid with
  | nil =>
    have hnil : mid = [] := by
      unfold schedule at h
      split at h
      · simp at h
      · cases mid with
        | nil => rfl
        | cons a mid => simp at h
    rw [hnil]
    exact Nat.le_of_lt (Nat.mod_lt _ (period_pos interval))
  | cons e es ih =>
    have hlt := Nat.mod_lt history.length (period_pos interval)
    unfold schedule at h
    cases mid with
    | nil => exact Nat.le_of_lt hlt
    | cons a mid =>
      injection h with _ h
      have hmid' : ∀ a ∈ mid, ∃ e, a = .forward e := fun a ha =>
        hmid a (List.mem_cons_of_mem _ ha)
      split at h
      · -- the attempt of this period comes next
        cases mid with
        | nil =>
          rw [List.length_singleton]
          omega
        | cons a mid =>
          injection h with ha
          obtain ⟨e', rfl⟩ := hmid' a List.mem_cons_self
          cases ha
      · rename_i hdvd
        have hle := ih h hmid'
        rw [List.length_append, List.length_singleton,
          mod_succ_of_not_dvd (period_pos interval) hdvd] at hle
        rw [List.length_cons]
        omega

end

/-- The actions of a run from the operator as constructed. -/
theorem runToClose_eq_schedule {func : U → Option (Event Record) × U} {captured : U}
    {es : List (Event Record)} (h : Yields func captured es)
    (allowedLateness watermarkInterval : UInt64) :
    (create func captured allowedLateness watermarkInterval).runToClose (es.length + 1) =
      schedule allowedLateness watermarkInterval 0 [] es := by
  rw [@runToClose_eq _ (create func captured allowedLateness watermarkInterval) es h]
  exact finish_eq_schedule (create_tracks func captured allowedLateness watermarkInterval) es

/-- The watermark sent last is at the overall maximum; none is sent when that is below the
lateness. -/
theorem last_sent {lateness interval sourceId : UInt64} {es : List (Event Record)} :
    if es ≠ [] ∧ lateness.toNat ≤ maxTime es then
      ∃ wm, (sent (schedule lateness interval sourceId [] es)).getLast? = some wm ∧
        wm.timestamp.toNat = maxTime es - lateness.toNat
    else sent (schedule lateness interval sourceId [] es) = [] := by
  split
  · rename_i h
    obtain ⟨hne, hle⟩ := h
    have hinc := @sent_increasing lateness interval sourceId [] es
    have hall : ∀ wm ∈ sent (schedule lateness interval sourceId [] es),
        wm.timestamp.toNat + lateness.toNat ≤ maxTime es := fun wm hwm => timestamp_le hwm
    rcases @sent_max lateness interval sourceId [] es hne hle with ⟨wm, hwm, hts⟩ | ⟨hno, -⟩
    · rw [List.nil_append] at hts
      rcases List.eq_nil_or_concat (sent (schedule lateness interval sourceId [] es)) with
        hnil | ⟨init, last, hlast⟩
      · rw [hnil] at hwm
        cases hwm
      · rw [List.concat_eq_append] at hlast
        rw [hlast] at hwm hinc hall ⊢
        refine ⟨last, List.getLast?_concat, ?_⟩
        rcases List.mem_append.mp hwm with hinit | hlast'
        · -- a later watermark would be above the maximum
          have hlt := (List.pairwise_append.mp hinc).2.2 wm hinit last (List.mem_singleton.mpr rfl)
          have hle' := hall last (List.mem_append_right _ (List.mem_singleton.mpr rfl))
          rw [UInt64.lt_iff_toNat_lt] at hlt
          omega
        · obtain rfl := List.mem_singleton.mp hlast'
          omega
    · exact absurd (by simp [attempted]) hno
  · rename_i h
    rw [List.eq_nil_iff_forall_not_mem]
    intro wm hwm
    apply h
    have hle := timestamp_le hwm
    rw [List.nil_append] at hle
    refine ⟨?_, by omega⟩
    rintro rfl
    simp [schedule] at hwm

/-- The watermarks of a run that ends after any number of pulls: none iff every event that has been
pulled is below the lateness. -/
theorem sent_eq_nil_iff {func : U → Option (Event Record) × U} {captured : U}
    {allowedLateness watermarkInterval : UInt64} {n : Nat} :
    sent ((create func captured allowedLateness watermarkInterval).runToClose n) = [] ↔
      ∀ e ∈ pulled func n captured, e.timestamp < allowedLateness := by
  have hactions : (create func captured allowedLateness watermarkInterval).runToClose n =
      schedule allowedLateness watermarkInterval 0 [] (pulled func n captured) :=
    (runToClose_eq_finish n _).trans
      (finish_eq_schedule (create_tracks func captured allowedLateness watermarkInterval) _)
  have hlast := @last_sent allowedLateness watermarkInterval 0 (pulled func n captured)
  rw [hactions]
  constructor
  · intro hnil e he
    rw [UInt64.lt_iff_toNat_lt]
    by_contra hcon
    have hle : time e ≤ maxTime (pulled func n captured) := time_le_maxTime he
    have hts : time e = e.timestamp.toNat := rfl
    rw [if_pos ⟨List.ne_nil_of_mem he, by omega⟩, hnil] at hlast
    obtain ⟨wm, hwm, -⟩ := hlast
    cases hwm
  · intro hall
    have hno : ¬ (pulled func n captured ≠ [] ∧
        allowedLateness.toNat ≤ maxTime (pulled func n captured)) := by
      rintro ⟨hne, hle⟩
      have hlt : ∀ e ∈ pulled func n captured, time e < allowedLateness.toNat :=
        fun e he => UInt64.lt_iff_toNat_lt.mp (hall e he)
      obtain ⟨e, he⟩ := List.exists_mem_of_ne_nil _ hne
      exact absurd (maxTime_lt (Nat.zero_lt_of_lt (hlt e he)) hlt) (Nat.not_lt.mpr hle)
    rwa [if_neg hno] at hlast

/-- **The source's contract.** In a run over the events `es`, followed by `close`: (1) the events
sent are `es`; (2) the watermarks strictly increase; (3) a watermark is the maximum of the events
sent before it less the lateness, which does not go below 0; (4) an event that is at most the
lateness below the maximum of those before it is not below a watermark sent before it; (5) the last
watermark is at the overall maximum, and there is none if that is below the lateness; (6) between
two attempts at most a period of events is forwarded. -/
theorem source_contract (func : U → Option (Event Record) × U) (captured : U)
    (allowedLateness watermarkInterval : UInt64) (es : List (Event Record))
    (h : Yields func captured es) (actions : List SourceAction)
    (hactions : actions =
      (create func captured allowedLateness watermarkInterval).runToClose (es.length + 1)) :
    events (elements actions) = es ∧
    (watermarks (elements actions)).Pairwise (·.timestamp < ·.timestamp) ∧
    (∀ pre wm post, actions = pre ++ .attempt (some wm) :: post →
      allowedLateness.toNat ≤ maxTime (forwarded pre) ∧
        wm.timestamp.toNat = maxTime (forwarded pre) - allowedLateness.toNat) ∧
    (∀ pre e post, actions = pre ++ .forward e :: post →
      maxTime (forwarded pre) ≤ time e + allowedLateness.toNat →
        ∀ wm ∈ sent pre, wm.timestamp ≤ e.timestamp) ∧
    (if es ≠ [] ∧ allowedLateness.toNat ≤ maxTime es then
      ∃ wm, (watermarks (elements actions)).getLast? = some wm ∧
        wm.timestamp.toNat = maxTime es - allowedLateness.toNat
    else watermarks (elements actions) = []) ∧
    ∀ pre w mid w' post, actions = pre ++ .attempt w :: (mid ++ .attempt w' :: post) →
      (∀ a ∈ mid, ∃ e, a = .forward e) → mid.length ≤ max watermarkInterval.toNat 1 := by
  rw [runToClose_eq_schedule h] at hactions
  rw [events_elements, watermarks_elements]
  subst hactions
  refine ⟨forwarded_schedule, sent_increasing, fun pre wm post hsplit => ?_,
    fun pre e post hsplit hlate wm hwm => ?_, last_sent, fun pre w mid w' post hsplit hmid => ?_⟩
  · have hts := timestamp_of_split hsplit
    rw [List.nil_append] at hts
    omega
  · obtain ⟨pre₁, pre₂, rfl⟩ := List.append_of_mem (mem_sent.mp hwm)
    rw [List.append_assoc, List.cons_append] at hsplit
    have hts := timestamp_of_split hsplit
    have hmono : maxTime (forwarded pre₁) ≤
        maxTime (forwarded (pre₁ ++ .attempt (some wm) :: pre₂)) := by
      rw [forwarded_append]
      exact maxTime_mono (List.prefix_append _ _)
    rw [List.nil_append] at hts
    rw [UInt64.le_iff_toNat_le]
    have : time e = e.timestamp.toNat := rfl
    omega
  · obtain ⟨-, hnil | ⟨rest, -, hdvd, hpost⟩⟩ := schedule_split hsplit
    · simp at hnil
    · have hle := gap_le hpost.symm hmid
      rw [Nat.mod_eq_zero_of_dvd hdvd, Nat.zero_add] at hle
      exact hle

/-- A source of the two events 5 and 3, with a lateness of 2 and an attempt after each event. -/
theorem source_contract_small : watermarks (elements ((create
    (fun u : List (Event Record) => (u.head?, u.tail)) [eventAt 5, eventAt 3] 2 1).runToClose 3))
      ≠ [] := by
  have h := (source_contract (fun u : List (Event Record) => (u.head?, u.tail))
    [eventAt 5, eventAt 3] 2 1 [eventAt 5, eventAt 3] ⟨rfl, rfl, rfl⟩ _ rfl).2.2.2.2.1
  rw [if_pos (by decide)] at h
  obtain ⟨wm, hlast, -⟩ := h
  intro hnil
  rw [List.length_cons, List.length_singleton, hnil] at hlast
  cases hlast

end SourcePhysicalOperator

end Xtream
