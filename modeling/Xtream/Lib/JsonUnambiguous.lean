import Xtream.Lib.Json

/-!
# A JSON text denotes one value

A number ends where no character follows that could continue it, and every other choice of the
grammar is decided by the next character that is no white space.

* `Derives.unique`, `Document.unique`: a text denotes one value;
* `Value.str_injective`, `Value.nat_injective`, `Value.obj_cons_injective`: different values.
-/

namespace Json

variable {s : Symbol} {t t₁ r r' : List Char} {v v' : Value}

/-! ## What follows a symbol -/

/-- A character of a number. -/
def isNumberChar (c : Char) : Bool :=
  c.isDigit || c == '-' || c == '+' || c == '.' || c == 'e' || c == 'E'

/-- No number goes on here. -/
def Stops (r : List Char) : Prop := ∀ c ∈ r.head?, isNumberChar c = false

theorem IsNumber.chars {n : List Char} (h : IsNumber n) : ∀ c ∈ n, isNumberChar c = true := by
  have hdigit : ∀ ds, Digits ds → ∀ c ∈ ds, isNumberChar c = true := by
    intro ds hds c hc
    simp [isNumberChar, hds.2 c hc]
  obtain ⟨sign, int, frac, exp, rfl, hsign, hint, hfrac, hexp⟩ := h
  refine List.forall_mem_append.mpr ⟨?_, List.forall_mem_append.mpr ⟨?_,
    List.forall_mem_append.mpr ⟨?_, ?_⟩⟩⟩
  · rcases hsign with rfl | rfl <;> exact List.all_eq_true.mp rfl
  · rcases hint with rfl | ⟨hint, -⟩
    · exact List.all_eq_true.mp rfl
    · exact hdigit int hint
  · rcases hfrac with rfl | ⟨ds, hds, rfl⟩
    · exact List.forall_mem_nil _
    · exact List.forall_mem_cons.mpr ⟨by decide, hdigit ds hds⟩
  · rcases hexp with rfl | ⟨e, sign', ds, he, hsign', hds, rfl⟩
    · exact List.forall_mem_nil _
    · refine List.forall_mem_cons.mpr ⟨?_, List.forall_mem_append.mpr ⟨?_, hdigit ds hds⟩⟩
      · rcases he with rfl | rfl <;> decide
      · rcases hsign' with rfl | rfl | rfl <;> exact List.all_eq_true.mp rfl

/-- A number starts with a digit or a minus. -/
theorem IsNumber.head {n : List Char} (h : IsNumber n) :
    ∃ c n', n = c :: n' ∧ (c.isDigit = true ∨ c = '-') := by
  obtain ⟨sign, int, frac, exp, rfl, hsign, hint, -⟩ := h
  rcases hsign with rfl | rfl
  · rcases hint with rfl | ⟨⟨hne, hdigits⟩, -⟩
    · exact ⟨'0', frac ++ exp, rfl, Or.inl (by decide)⟩
    · obtain ⟨c, int, rfl⟩ := List.exists_cons_of_ne_nil hne
      exact ⟨c, int ++ (frac ++ exp), rfl, Or.inl (hdigits c List.mem_cons_self)⟩
  · exact ⟨'-', _, rfl, Or.inr rfl⟩

/-- A text with another first character is no number. -/
theorem IsNumber.ne_cons {n : List Char} (h : IsNumber n) {c : Char}
    (hc : c.isDigit = false ∧ c ≠ '-') : c :: t ≠ n ++ r := by
  obtain ⟨c', n', rfl, hstart⟩ := h.head
  intro heq
  obtain rfl := (List.cons.inj heq).1
  rcases hstart with hdigit | rfl
  · rw [hc.1] at hdigit
    cases hdigit
  · exact hc.2 rfl

/-- A number is read to its end. -/
theorem number_unique {n n' : List Char} (hn : ∀ c ∈ n, isNumberChar c = true)
    (hn' : ∀ c ∈ n', isNumberChar c = true) (hr : Stops r) (hr' : Stops r')
    (heq : n ++ r = n' ++ r') : n = n' ∧ r = r' := by
  induction n generalizing n' with
  | nil =>
    cases n' with
    | nil => exact ⟨rfl, heq⟩
    | cons c n' =>
      have hstop := hr c (by rw [List.nil_append] at heq; simp [heq])
      rw [hn' c List.mem_cons_self] at hstop
      cases hstop
  | cons c n ih =>
    cases n' with
    | nil =>
      have hstop := hr' c (by rw [List.nil_append] at heq; simp [← heq])
      rw [hn c List.mem_cons_self] at hstop
      cases hstop
    | cons c' n' =>
      obtain ⟨rfl, htail⟩ := List.cons.inj heq
      obtain ⟨rfl, rfl⟩ := ih (List.forall_mem_cons.mp hn).2 (List.forall_mem_cons.mp hn').2 htail
      exact ⟨rfl, rfl⟩

theorem isNumberChar_of_isSpace {c : Char} (h : isSpace c = true) : isNumberChar c = false := by
  simp only [isSpace, Bool.or_eq_true, beq_iff_eq] at h
  rcases h with ((rfl | rfl) | rfl) | rfl <;> decide

theorem Ws.stops {c : Char} (h : Ws t (c :: r)) (hc : isNumberChar c = false) : Stops t := by
  obtain ⟨ws, hws, rfl⟩ := h
  intro c' hc'
  cases ws with
  | nil =>
    cases hc'
    exact hc
  | cons w ws =>
    cases hc'
    exact isNumberChar_of_isSpace (hws c' List.mem_cons_self)

theorem Ws.stops_nil (h : Ws t []) : Stops t := by
  obtain ⟨ws, hws, rfl⟩ := h
  intro c hc
  rw [List.append_nil] at hc
  exact isNumberChar_of_isSpace (hws c (List.mem_of_mem_head? hc))

/-- White space is read to its end. -/
theorem Ws.unique {c c' : Char} (h : Ws t (c :: r)) (h' : Ws t (c' :: r'))
    (hc : isSpace c = false) (hc' : isSpace c' = false) : c = c' ∧ r = r' := by
  obtain ⟨ws, hws, rfl⟩ := h
  obtain ⟨ws', hws', heq⟩ := h'
  induction ws generalizing ws' with
  | nil =>
    cases ws' with
    | nil => exact List.cons.inj heq
    | cons w ws' =>
      obtain ⟨rfl, -⟩ := List.cons.inj heq
      rw [hws' c List.mem_cons_self] at hc
      cases hc
  | cons w ws ih =>
    cases ws' with
    | nil =>
      obtain ⟨rfl, -⟩ := List.cons.inj heq
      rw [hws w List.mem_cons_self] at hc'
      cases hc'
    | cons w' ws' =>
      exact ih (List.forall_mem_cons.mp hws).2 ws' (List.forall_mem_cons.mp hws').2
        (List.cons.inj heq).2

/-- The first character of a symbol is no white space and no closing bracket. -/
theorem Derives.head (h : Derives s t v r) :
    ∃ c t', t = c :: t' ∧ isSpace c = false ∧ c ≠ ']' ∧ c ≠ '}' := by
  induction h with
  | number hn ht =>
    obtain ⟨c, n', rfl, hstart⟩ := hn.head
    refine ⟨c, n' ++ _, ht, ?_⟩
    have hdigit : c = '-' ∨ c.isDigit = true := hstart.symm
    refine ⟨?_, ?_, ?_⟩
    · by_contra hspace
      simp only [isSpace, Bool.not_eq_false, Bool.or_eq_true, beq_iff_eq] at hspace
      rcases hspace with ((rfl | rfl) | rfl) | rfl <;> revert hdigit <;> decide
    · rintro rfl
      revert hdigit
      decide
    · rintro rfl
      revert hdigit
      decide
  | lastElement _ _ ih => exact ih
  | element _ _ _ _ ih _ => exact ih
  | _ => exact ⟨_, _, rfl, by decide, by decide, by decide⟩

/-- The text behind white space is where a symbol starts. -/
theorem Derives.ws_unique {s' : Symbol} (h : Derives s t v r) {t' : List Char}
    (h' : Derives s' t' v' r') {t₀ : List Char} (hws : Ws t₀ t) (hws' : Ws t₀ t') : t = t' := by
  obtain ⟨c, t, rfl, hc, -⟩ := h.head
  obtain ⟨c', t', rfl, hc', -⟩ := h'.head
  obtain ⟨rfl, rfl⟩ := hws.unique hws' hc hc'
  rfl

/-- A symbol does not start with a closing bracket. -/
theorem Derives.not_closed (h : Derives s t v r) {t₀ : List Char} (hws : Ws t₀ t) {c : Char}
    (hclose : c = ']' ∨ c = '}') (hws' : Ws t₀ (c :: r')) : False := by
  obtain ⟨c', t, rfl, hc', hne⟩ := h.head
  have hc : isSpace c = false := by rcases hclose with rfl | rfl <;> decide
  obtain ⟨rfl, -⟩ := hws.unique hws' hc' hc
  exact hclose.elim hne.1 hne.2

/-! ## One value -/

theorem Chars.unique {us us' : List Nat} (h : Chars t us r) (h' : Chars t us' r') :
    us = us' ∧ r = r' := by
  induction h generalizing us' with
  | done r =>
    cases h' with
    | done => exact ⟨rfl, rfl⟩
    | unescaped hc _ => exact absurd rfl hc.2.1
  | unescaped hc _ ih =>
    cases h' with
    | done => exact absurd rfl hc.2.1
    | unescaped _ h' =>
      obtain ⟨rfl, rfl⟩ := ih h'
      exact ⟨rfl, rfl⟩
    | escape _ _ => exact absurd rfl hc.2.2
    | unicode _ _ => exact absurd rfl hc.2.2
  | escape hc _ ih =>
    cases h' with
    | unescaped hc' _ => exact absurd rfl hc'.2.2
    | escape hc' h' =>
      obtain ⟨rfl, rfl⟩ := ih h'
      obtain rfl := Option.some.inj (hc.symm.trans hc')
      exact ⟨rfl, rfl⟩
    | unicode _ _ => cases hc
  | unicode hc _ ih =>
    cases h' with
    | unescaped hc' _ => exact absurd rfl hc'.2.2
    | escape hc' _ => cases hc'
    | unicode hc' h' =>
      obtain ⟨rfl, rfl⟩ := ih h'
      obtain rfl := Option.some.inj (hc.symm.trans hc')
      exact ⟨rfl, rfl⟩

/-- A member is read to the end of its value, if its value is. -/
theorem member_unique {t₂ t₃ t₄ t₁' t₂' t₃' t₄' : List Char} {key key' : List Nat}
    (hkey : Chars t key t₁) (hcolon : Ws t₁ (':' :: t₂)) (hws : Ws t₂ t₃)
    (hv : Derives .value t₃ v t₄) (hkey' : Chars t key' t₁') (hcolon' : Ws t₁' (':' :: t₂'))
    (hws' : Ws t₂' t₃') (hv' : Derives .value t₃' v' t₄')
    (hunique : Derives .value t₃ v' t₄' → v = v' ∧ t₄ = t₄') : key = key' ∧ v = v' ∧ t₄ = t₄' := by
  obtain ⟨rfl, rfl⟩ := hkey.unique hkey'
  obtain rfl := (hcolon.unique hcolon' (by decide) (by decide)).2
  obtain rfl := hv.ws_unique hv' hws hws'
  exact ⟨rfl, hunique hv'⟩

/-- **A symbol denotes one value**, and is read to one place. -/
theorem Derives.unique (h : Derives s t v r) (h' : Derives s t v' r')
    (hstops : s = .value → Stops r ∧ Stops r') : v = v' ∧ r = r' := by
  induction h generalizing v' r' with
  | litNull r =>
    cases h' with
    | litNull => exact ⟨rfl, rfl⟩
    | number hn ht => exact absurd ht (hn.ne_cons (by decide))
  | litTrue r =>
    cases h' with
    | litTrue => exact ⟨rfl, rfl⟩
    | number hn ht => exact absurd ht (hn.ne_cons (by decide))
  | litFalse r =>
    cases h' with
    | litFalse => exact ⟨rfl, rfl⟩
    | number hn ht => exact absurd ht (hn.ne_cons (by decide))
  | number hn ht =>
    obtain ⟨hr, hr'⟩ := hstops rfl
    cases h' with
    | number hn' ht' =>
      obtain ⟨rfl, rfl⟩ := number_unique hn.chars hn'.chars hr hr' (ht.symm.trans ht')
      exact ⟨rfl, rfl⟩
    | _ => exact absurd ht (hn.ne_cons (by decide))
  | string h =>
    cases h' with
    | string h' =>
      obtain ⟨rfl, rfl⟩ := h.unique h'
      exact ⟨rfl, rfl⟩
    | number hn ht => exact absurd ht (hn.ne_cons (by decide))
  | emptyArray hws =>
    cases h' with
    | emptyArray hws' => exact ⟨rfl, (hws.unique hws' (by decide) (by decide)).2⟩
    | array hws' h' => exact (h'.not_closed hws' (Or.inl rfl) hws).elim
    | number hn ht => exact absurd ht (hn.ne_cons (by decide))
  | array hws h ih =>
    cases h' with
    | emptyArray hws' => exact (h.not_closed hws (Or.inl rfl) hws').elim
    | array hws' h' =>
      obtain rfl := h.ws_unique h' hws hws'
      exact ih h' fun h => by cases h
    | number hn ht => exact absurd ht (hn.ne_cons (by decide))
  | emptyObject hws =>
    cases h' with
    | emptyObject hws' => exact ⟨rfl, (hws.unique hws' (by decide) (by decide)).2⟩
    | object hws' h' => exact (h'.not_closed hws' (Or.inr rfl) hws).elim
    | number hn ht => exact absurd ht (hn.ne_cons (by decide))
  | object hws h ih =>
    cases h' with
    | emptyObject hws' => exact (h.not_closed hws (Or.inr rfl) hws').elim
    | object hws' h' =>
      obtain rfl := h.ws_unique h' hws hws'
      exact ih h' fun h => by cases h
    | number hn ht => exact absurd ht (hn.ne_cons (by decide))
  | lastElement _ hws ih =>
    cases h' with
    | lastElement hv' hws' =>
      obtain ⟨rfl, rfl⟩ := ih hv' fun _ => ⟨hws.stops (by decide), hws'.stops (by decide)⟩
      exact ⟨rfl, (hws.unique hws' (by decide) (by decide)).2⟩
    | element hv' hws' _ _ =>
      obtain ⟨rfl, rfl⟩ := ih hv' fun _ => ⟨hws.stops (by decide), hws'.stops (by decide)⟩
      exact absurd (hws.unique hws' (by decide) (by decide)).1 (by decide)
  | element _ hws hws' h ih ihrest =>
    cases h' with
    | lastElement hv' hclose =>
      obtain ⟨rfl, rfl⟩ := ih hv' fun _ => ⟨hws.stops (by decide), hclose.stops (by decide)⟩
      exact absurd (hws.unique hclose (by decide) (by decide)).1 (by decide)
    | element hv' hcomma hafter h' =>
      obtain ⟨rfl, rfl⟩ := ih hv' fun _ => ⟨hws.stops (by decide), hcomma.stops (by decide)⟩
      obtain rfl := (hws.unique hcomma (by decide) (by decide)).2
      obtain rfl := h.ws_unique h' hws' hafter
      obtain ⟨heq, rfl⟩ := ihrest h' fun h => by cases h
      cases heq
      exact ⟨rfl, rfl⟩
  | lastMember hkey hcolon hws hv hclose ih =>
    cases h' with
    | lastMember hkey' hcolon' hws' hv' hclose' =>
      obtain ⟨rfl, rfl, rfl⟩ := member_unique hkey hcolon hws hv hkey' hcolon' hws' hv'
        fun hv' => ih hv' fun _ => ⟨hclose.stops (by decide), hclose'.stops (by decide)⟩
      exact ⟨rfl, (hclose.unique hclose' (by decide) (by decide)).2⟩
    | member hkey' hcolon' hws' hv' hcomma _ _ =>
      obtain ⟨rfl, rfl, rfl⟩ := member_unique hkey hcolon hws hv hkey' hcolon' hws' hv'
        fun hv' => ih hv' fun _ => ⟨hclose.stops (by decide), hcomma.stops (by decide)⟩
      exact absurd (hclose.unique hcomma (by decide) (by decide)).1 (by decide)
  | member hkey hcolon hws hv hcomma hafter h ih ihrest =>
    cases h' with
    | lastMember hkey' hcolon' hws' hv' hclose =>
      obtain ⟨rfl, rfl, rfl⟩ := member_unique hkey hcolon hws hv hkey' hcolon' hws' hv'
        fun hv' => ih hv' fun _ => ⟨hcomma.stops (by decide), hclose.stops (by decide)⟩
      exact absurd (hcomma.unique hclose (by decide) (by decide)).1 (by decide)
    | member hkey' hcolon' hws' hv' hcomma' hafter' h' =>
      obtain ⟨rfl, rfl, rfl⟩ := member_unique hkey hcolon hws hv hkey' hcolon' hws' hv'
        fun hv' => ih hv' fun _ => ⟨hcomma.stops (by decide), hcomma'.stops (by decide)⟩
      obtain rfl := (hcomma.unique hcomma' (by decide) (by decide)).2
      obtain rfl := h.ws_unique h' hafter hafter'
      obtain ⟨heq, rfl⟩ := ihrest h' fun h => by cases h
      cases heq
      exact ⟨rfl, rfl⟩

/-- **A document denotes one value.** -/
theorem Document.unique (h : Document t v) (h' : Document t v') : v = v' := by
  obtain ⟨t₁, t₂, hws, hd, hend⟩ := h
  obtain ⟨t₁', t₂', hws', hd', hend'⟩ := h'
  obtain rfl := hd.ws_unique hd' hws hws'
  exact (hd.unique hd' fun _ => ⟨hend.stops_nil, hend'.stops_nil⟩).1

/-! ## Strings and numbers -/

/-- The units of a character are read to their end. -/
theorem charUnits_append_inj {c c' : Char} {us us' : List Nat}
    (h : charUnits c ++ us = charUnits c' ++ us') : c = c' ∧ us = us' := by
  have hc : c.toNat < 0xD800 ∨ 0xDFFF < c.toNat ∧ c.toNat < 0x110000 := c.valid
  have hc' : c'.toNat < 0xD800 ∨ 0xDFFF < c'.toNat ∧ c'.toNat < 0x110000 := c'.valid
  unfold charUnits at h
  split at h <;> split at h <;>
    simp only [List.cons_append, List.nil_append, List.cons.injEq] at h
  · exact ⟨Char.toNat_inj.mp h.1, h.2⟩
  · omega
  · omega
  · exact ⟨Char.toNat_inj.mp (by omega), h.2.2⟩

theorem units_injective {s s' : List Char} (h : units s = units s') : s = s' := by
  have hne : ∀ (c : Char) (us : List Nat), charUnits c ++ us ≠ [] := by
    intro c us
    unfold charUnits
    split <;> exact List.cons_ne_nil _ _
  induction s generalizing s' with
  | nil =>
    cases s' with
    | nil => rfl
    | cons c s' => exact absurd h.symm (hne c (units s'))
  | cons c s ih =>
    cases s' with
    | nil => exact absurd h (hne c (units s))
    | cons c' s' =>
      obtain ⟨rfl, hrest⟩ := charUnits_append_inj h
      rw [ih hrest]

theorem Value.nat_injective {n n' : Nat} (h : Value.nat n = Value.nat n') : n = n' := by
  have hdigits := congrArg (Nat.ofDigitChars 10 · 0) (Value.number.inj h)
  simpa only [Nat.ofDigitChars_ten_toDigits] using hdigits

theorem Value.str_injective {s s' : String} (h : Value.str s = Value.str s') : s = s' :=
  String.toList_injective (units_injective (Value.string.inj h))

theorem Value.obj_cons_injective {key key' : String} {ms ms' : List (String × Value)}
    (h : Value.obj ((key, v) :: ms) = Value.obj ((key', v') :: ms')) :
    v = v' ∧ Value.obj ms = Value.obj ms' := by
  obtain ⟨hhead, htail⟩ := List.cons.inj (Value.object.inj h)
  exact ⟨(Prod.mk.inj hhead).2, congrArg Value.object htail⟩

end Json
