import Mathlib.Algebra.Order.Ring.Nat
import Xtream.Lib.Json

/-!
# What the escapes of a JSON text cost

Every escape has a backslash that is no unit of the string, or stands for one of two. So a text with
no more backslashes and letters `u` than the strings of its value has no escape, and these strings
have nothing that must be escaped.

* `Value.cost`: the backslashes and letters `u` of all the strings of a value;
* `Charges`: a piece of a text pays for a value;
* `Document.plain`: a text that pays no more than the value has no escape;
* `cost_string`, `cost_nat`, `cost_array`, `cost_object`: texts that pay no more.
-/

namespace Json

/-! ## The strings of a value -/

mutual

/-- The strings of a value, the keys among them. -/
def Value.strings : Value → List (List Nat)
  | .null => []
  | .bool _ => []
  | .number _ => []
  | .string us => [us]
  | .array vs => elementStrings vs
  | .object ms => memberStrings ms

def elementStrings : List Value → List (List Nat)
  | [] => []
  | v :: vs => v.strings ++ elementStrings vs

def memberStrings : List (List Nat × Value) → List (List Nat)
  | [] => []
  | (key, v) :: ms => key :: (v.strings ++ memberStrings ms)

end

def cost (t : List Char) : Nat := t.countP fun c => c == '\\' || c == 'u'

def unitCost (us : List Nat) : Nat := us.countP fun u => u == 0x5C || u == 0x75

def Value.cost (v : Value) : Nat := (v.strings.map unitCost).sum

/-- A unit that may stand in a string as it is. -/
def PlainUnit (u : Nat) : Prop := 0x20 ≤ u ∧ u ≠ 0x22 ∧ u ≠ 0x5C

def Value.Plain (v : Value) : Prop := ∀ us ∈ v.strings, ∀ u ∈ us, PlainUnit u

@[simp]
theorem cost_append (t r : List Char) : cost (t ++ r) = cost t + cost r := List.countP_append

@[simp]
theorem unitCost_append (us us' : List Nat) : unitCost (us ++ us') = unitCost us + unitCost us' :=
  List.countP_append

namespace Value

theorem cost_string (us : List Nat) : (string us).cost = unitCost us := by simp [cost, strings]

theorem cost_array_nil : (array []).cost = 0 := rfl

theorem cost_array_cons (v : Value) (vs : List Value) :
    (array (v :: vs)).cost = v.cost + (array vs).cost := by
  simp [cost, strings, elementStrings]

theorem cost_object_nil : (object []).cost = 0 := rfl

theorem cost_object_cons (key : List Nat) (v : Value) (ms : List (List Nat × Value)) :
    (object ((key, v) :: ms)).cost = unitCost key + v.cost + (object ms).cost := by
  simp [cost, strings, memberStrings, Nat.add_assoc]

theorem plain_string {us : List Nat} : (string us).Plain ↔ ∀ u ∈ us, PlainUnit u := by
  simp [Plain, strings]

theorem plain_array_nil : (array []).Plain := List.forall_mem_nil _

theorem plain_array_cons {v : Value} {vs : List Value} :
    (array (v :: vs)).Plain ↔ v.Plain ∧ (array vs).Plain := by
  simp [Plain, strings, elementStrings, or_imp, forall_and]

theorem plain_array {vs : List Value} : (array vs).Plain ↔ ∀ v ∈ vs, v.Plain := by
  induction vs with
  | nil => simp [plain_array_nil]
  | cons v vs ih => rw [plain_array_cons, ih, List.forall_mem_cons]

theorem plain_object_nil : (object []).Plain := List.forall_mem_nil _

theorem plain_object_cons {key : List Nat} {v : Value} {ms : List (List Nat × Value)} :
    (object ((key, v) :: ms)).Plain ↔
      (∀ u ∈ key, PlainUnit u) ∧ v.Plain ∧ (object ms).Plain := by
  simp [Plain, strings, memberStrings, or_imp, forall_and]

end Value

/-! ## What a piece of a text pays for -/

/-- The text down to `r` pays for `n`, and for more than that unless `p`. -/
def Charges (t r : List Char) (n : Nat) (p : Prop) : Prop :=
  n + cost r ≤ cost t ∧ (cost t ≤ n + cost r → p)

section

variable {t t₁ r : List Char} {n m : Nat} {p q : Prop}

theorem Charges.trans (h : Charges t t₁ n p) (h' : Charges t₁ r m q) :
    Charges t r (n + m) (p ∧ q) := by
  obtain ⟨hle, hp⟩ := h
  obtain ⟨hle', hq⟩ := h'
  refine ⟨by omega, fun htotal => ⟨hp ?_, hq ?_⟩⟩
  · omega
  · omega

theorem Charges.imp (h : Charges t r n p) (hpq : p → q) : Charges t r n q :=
  ⟨h.1, fun hle => hpq (h.2 hle)⟩

/-- What stands before a piece only adds to what is paid. -/
theorem Charges.append_left (h : Charges t r n p) (ws : List Char) : Charges (ws ++ t) r n p := by
  obtain ⟨hle, hp⟩ := h
  refine ⟨?_, fun htotal => hp ?_⟩
  · rw [cost_append]
    omega
  · rw [cost_append] at htotal
    omega

theorem Charges.cons (h : Charges t r n p) (c : Char) : Charges (c :: t) r n p :=
  h.append_left [c]

/-- A piece that pays for something it does not have. -/
theorem Charges.of_lt (h : n + cost r < cost t) : Charges t r n p :=
  ⟨Nat.le_of_lt h, fun hle => absurd hle (Nat.not_le.mpr h)⟩

theorem Charges.refl (t : List Char) : Charges t t 0 True := ⟨by omega, fun _ => trivial⟩

theorem Ws.charges (h : Ws t r) : Charges t r 0 True := by
  obtain ⟨ws, -, rfl⟩ := h
  exact (Charges.refl r).append_left ws

end

/-! ## Strings -/

/-- A character that may stand as it is pays for its own units. -/
theorem unitCost_charUnits (c : Char) : unitCost (charUnits c) = cost [c] := by
  have hback : c = '\\' ↔ c.toNat = 0x5C := by
    rw [← Char.toNat_inj]
    rfl
  have hu : c = 'u' ↔ c.toNat = 0x75 := by
    rw [← Char.toNat_inj]
    rfl
  unfold charUnits
  split
  · simp [unitCost, cost, hback, hu]
  · have hhigh : 0xD800 + (c.toNat - 0x10000) / 0x400 ≠ 0x5C ∧
        0xD800 + (c.toNat - 0x10000) / 0x400 ≠ 0x75 := by omega
    have hlow : 0xDC00 + (c.toNat - 0x10000) % 0x400 ≠ 0x5C ∧
        0xDC00 + (c.toNat - 0x10000) % 0x400 ≠ 0x75 := by omega
    have hc : c.toNat ≠ 0x5C ∧ c.toNat ≠ 0x75 := by omega
    simp [unitCost, cost, hback, hu, hhigh, hlow, hc]

theorem unitCost_units (s : List Char) : unitCost (units s) = cost s := by
  induction s with
  | nil => rfl
  | cons c s ih =>
    change unitCost (charUnits c ++ units s) = cost ([c] ++ s)
    rw [unitCost_append, unitCost_charUnits, ih, cost_append]

/-- A character may stand as it is if and only if its units may. -/
theorem plainUnit_charUnits {c : Char} : (∀ u ∈ charUnits c, PlainUnit u) ↔ Unescaped c := by
  have hquote : c = '"' ↔ c.toNat = 0x22 := by
    rw [← Char.toNat_inj]
    rfl
  have hback : c = '\\' ↔ c.toNat = 0x5C := by
    rw [← Char.toNat_inj]
    rfl
  unfold charUnits Unescaped PlainUnit
  split
  · simp [hquote, hback]
  · rename_i hbig
    constructor
    · intro _
      simp only [ne_eq, hquote, hback]
      omega
    · intro _ u hu
      simp only [List.mem_cons, List.not_mem_nil, or_false] at hu
      omega

theorem plainUnit_units {s : List Char} :
    (∀ u ∈ units s, PlainUnit u) ↔ ∀ c ∈ s, Unescaped c := by
  unfold units
  simp only [List.mem_flatMap, ← plainUnit_charUnits]
  constructor
  · intro h c hc u hu
    exact h u ⟨c, hc, hu⟩
  · rintro h u ⟨c, hc, hu⟩
    exact h c hc u hu

theorem unitCost_cons_le (u : Nat) (us : List Nat) : unitCost (u :: us) ≤ unitCost us + 1 := by
  change unitCost ([u] ++ us) ≤ _
  rw [unitCost_append, Nat.add_comm]
  exact Nat.add_le_add_left List.countP_le_length _

/-- The unit of a short escape is a backslash only if the escape has two. -/
theorem cost_escape {c : Char} {u : Nat} (h : escape? c = some u) :
    unitCost [u] < cost ['\\', c] := by
  unfold escape? at h
  split at h <;> cases h <;> decide

theorem Chars.charges {t r : List Char} {us : List Nat} (h : Chars t us r) :
    Charges t r (unitCost us) (∀ u ∈ us, PlainUnit u) := by
  induction h with
  | done r => exact ((Charges.refl r).imp fun _ => List.forall_mem_nil _).cons '"'
  | @unescaped c t r us hc _ ih =>
    have hone : Charges (c :: t) t (unitCost (charUnits c)) (∀ u ∈ charUnits c, PlainUnit u) := by
      rw [unitCost_charUnits]
      exact ⟨Nat.le_of_eq (cost_append [c] t).symm, fun _ => plainUnit_charUnits.mpr hc⟩
    rw [unitCost_append]
    exact (hone.trans ih).imp List.forall_mem_append.mpr
  | @escape c u t r us hc _ ih =>
    have hlt := cost_escape hc
    have htext : cost ('\\' :: c :: t) = cost ['\\', c] + cost t := cost_append ['\\', c] t
    have hunits : unitCost (u :: us) = unitCost [u] + unitCost us := unitCost_append [u] us
    have hle := ih.1
    exact Charges.of_lt (by omega)
  | @unicode a b c d u t r us _ _ ih =>
    have htext : cost ('\\' :: 'u' :: a :: b :: c :: d :: t) =
        2 + (cost [a, b, c, d] + cost t) := by
      rw [← cost_append]
      exact cost_append ['\\', 'u'] (a :: b :: c :: d :: t)
    have hunits := unitCost_cons_le u us
    have hle := ih.1
    exact Charges.of_lt (by omega)

/-! ## Values -/

/-- What has no strings costs nothing. -/
theorem charges_of_strings {v : Value} (h : v.strings = []) (t r : List Char) :
    Charges (t ++ r) r v.cost v.Plain := by
  have hplain : v.Plain := by simp [Value.Plain, h]
  have hcost : v.cost = 0 := by simp [Value.cost, h]
  rw [hcost]
  exact ((Charges.refl r).append_left t).imp fun _ => hplain

/-- White space with a character behind it. -/
theorem Ws.charges_cons {t r : List Char} {c : Char} (h : Ws t (c :: r)) :
    Charges t r 0 True :=
  (h.charges.trans ((Charges.refl r).cons c)).imp fun _ => trivial

/-- A text pays for the strings of its value, and for more than that if they have anything that
must be escaped. -/
theorem Derives.charges {s : Symbol} {t r : List Char} {v : Value} (h : Derives s t v r) :
    Charges t r v.cost v.Plain := by
  induction h with
  | litNull r => exact charges_of_strings rfl ['n', 'u', 'l', 'l'] r
  | litTrue r => exact charges_of_strings rfl ['t', 'r', 'u', 'e'] r
  | litFalse r => exact charges_of_strings rfl ['f', 'a', 'l', 's', 'e'] r
  | @number t n r _ ht =>
    rw [ht]
    exact charges_of_strings rfl n r
  | string h =>
    rw [Value.cost_string]
    exact (h.charges.imp Value.plain_string.mpr).cons '"'
  | emptyArray hws => exact (hws.charges_cons.imp fun _ => Value.plain_array_nil).cons '['
  | array hws _ ih =>
    have hrest := (hws.charges.trans ih).imp And.right
    rw [Nat.zero_add] at hrest
    exact hrest.cons '['
  | emptyObject hws => exact (hws.charges_cons.imp fun _ => Value.plain_object_nil).cons '{'
  | object hws _ ih =>
    have hrest := (hws.charges.trans ih).imp And.right
    rw [Nat.zero_add] at hrest
    exact hrest.cons '{'
  | lastElement _ hws ih =>
    rw [Value.cost_array_cons, Value.cost_array_nil]
    exact (ih.trans hws.charges_cons).imp fun h =>
      Value.plain_array_cons.mpr ⟨h.1, Value.plain_array_nil⟩
  | element _ hcomma hws _ ih ihrest =>
    have hrest := (hcomma.charges_cons.trans hws.charges).trans ihrest
    rw [Nat.add_zero, Nat.zero_add] at hrest
    rw [Value.cost_array_cons]
    exact (ih.trans hrest).imp fun h => Value.plain_array_cons.mpr ⟨h.1, h.2.2⟩
  | lastMember hkey hcolon hws _ hclose ih =>
    have hvalue := (hcolon.charges_cons.trans hws.charges).trans (ih.trans hclose.charges_cons)
    rw [Nat.zero_add] at hvalue
    have hmember := (hkey.charges.trans hvalue).cons '"'
    rw [← Nat.add_assoc] at hmember
    rw [Value.cost_object_cons, Value.cost_object_nil]
    exact hmember.imp fun h => Value.plain_object_cons.mpr ⟨h.1, h.2.2.1, Value.plain_object_nil⟩
  | member hkey hcolon hws _ hcomma hws' _ ih ihrest =>
    have hnext := (hcomma.charges_cons.trans hws'.charges).trans ihrest
    have hvalue := (hcolon.charges_cons.trans hws.charges).trans (ih.trans hnext)
    rw [Nat.zero_add, Nat.zero_add] at hvalue
    have hmember := (hkey.charges.trans hvalue).cons '"'
    rw [← Nat.add_assoc] at hmember
    rw [Value.cost_object_cons]
    exact hmember.imp fun h => Value.plain_object_cons.mpr ⟨h.1, h.2.2.1, h.2.2.2.2⟩

/-- **A document that pays no more than its strings cost has no escape**: its strings have nothing
that must be escaped. -/
theorem Document.plain {t : List Char} {v : Value} (h : Document t v) (hcost : cost t ≤ v.cost) :
    v.Plain := by
  obtain ⟨t₁, t₂, hws, hd, hend⟩ := h
  have hcharges := (hws.charges.trans hd.charges).trans hend.charges
  have htotal : cost t ≤ 0 + v.cost + 0 + cost [] := by
    simpa using Nat.le_add_right_of_le hcost
  exact (hcharges.2 htotal).1.2

/-! ## Texts that pay no more -/

theorem cost_string (s : List Char) :
    cost ('"' :: (s ++ ['"'])) = (Value.string (units s)).cost := by
  have htext : cost ('"' :: (s ++ ['"'])) = cost ['"'] + (cost s + cost ['"']) := by
    rw [← cost_append, ← cost_append]
    rfl
  rw [Value.cost_string, unitCost_units, htext]
  simp [cost]

theorem cost_nat (n : Nat) : cost (Nat.toDigits 10 n) = (Value.nat n).cost := by
  have hvalue : (Value.nat n).cost = 0 := rfl
  rw [hvalue, cost, List.countP_eq_zero]
  intro c hc
  have hdigit := Nat.isDigit_of_mem_toDigits (by decide) (by decide) hc
  have hne : c ≠ '\\' ∧ c ≠ 'u' := by
    constructor <;> rintro rfl <;> cases hdigit
  simp [hne]

section

variable {first after close : List Char}

theorem cost_separated (hafter : cost after = 0) (items : List (List Char)) :
    cost (separated after items) = (items.map cost).sum := by
  induction items with
  | nil => rfl
  | cons item items ih =>
    cases items with
    | nil => simp [separated]
    | cons next items =>
      have hcomma : cost (',' :: (after ++ separated after (next :: items))) =
          cost after + cost (separated after (next :: items)) := by
        rw [← cost_append]
        rfl
      rw [separated, cost_append, hcomma, hafter, ih, Nat.zero_add]
      rfl

theorem cost_spaced (hfirst : cost first = 0) (hafter : cost after = 0) (hclose : cost close = 0)
    (items : List (List Char)) : cost (spaced first after close items) = (items.map cost).sum := by
  cases items with
  | nil => exact hclose
  | cons item items =>
    rw [spaced, cost_append, cost_append, cost_separated hafter, hfirst, hclose]
    simp

/-- Brackets cost nothing. -/
theorem cost_bracketed {c c' : Char} (hc : cost [c] = 0) (hc' : cost [c'] = 0) (t : List Char) :
    cost (c :: (t ++ [c'])) = cost t := by
  have htext : cost (c :: (t ++ [c'])) = cost [c] + (cost t + cost [c']) := by
    rw [← cost_append, ← cost_append]
    rfl
  rw [htext, hc, hc', Nat.zero_add, Nat.add_zero]

theorem cost_array (hfirst : cost first = 0) (hafter : cost after = 0) (hclose : cost close = 0)
    {items : List (List Char × Value)} (h : ∀ i ∈ items, cost i.1 = i.2.cost) :
    cost ('[' :: (spaced first after close (items.map Prod.fst) ++ [']'])) =
      (Value.array (items.map Prod.snd)).cost := by
  rw [cost_bracketed rfl rfl, cost_spaced hfirst hafter hclose]
  induction items with
  | nil => rfl
  | cons item items ih =>
    obtain ⟨hitem, hrest⟩ := List.forall_mem_cons.mp h
    rw [List.map_cons, List.map_cons, List.sum_cons, hitem, ih hrest, ← Value.cost_array_cons]
    rfl

theorem cost_print (m : Member) :
    cost m.print = unitCost (units m.key.toList) + cost m.text := by
  have hprint : m.print = ['"'] ++ (m.key.toList ++ (['"', ':', ' '] ++ m.text)) := rfl
  rw [hprint, cost_append, cost_append, cost_append, unitCost_units]
  simp [cost]

theorem cost_object (hfirst : cost first = 0) (hafter : cost after = 0) (hclose : cost close = 0)
    {ms : List Member} (h : ∀ m ∈ ms, cost m.text = m.value.cost) :
    cost ('{' :: (spaced first after close (ms.map Member.print) ++ ['}'])) =
      (Value.object (ms.map Member.entry)).cost := by
  rw [cost_bracketed rfl rfl, cost_spaced hfirst hafter hclose]
  induction ms with
  | nil => rfl
  | cons m ms ih =>
    obtain ⟨hm, hrest⟩ := List.forall_mem_cons.mp h
    rw [List.map_cons, List.map_cons, List.sum_cons, ih hrest, cost_print, hm, List.map_cons,
      Member.entry, Value.cost_object_cons]

end

theorem cost_newLine (n : Nat) : cost (newLine n) = 0 := by
  refine List.countP_eq_zero.mpr fun c hc => ?_
  rcases List.mem_cons.mp hc with rfl | hc
  · decide
  · rw [List.eq_of_mem_replicate hc]
    decide

theorem cost_lineText {ms : List Member} (h : ∀ m ∈ ms, cost m.text = m.value.cost) :
    cost (lineText ms) = (Value.object (ms.map Member.entry)).cost :=
  cost_object rfl rfl rfl h

theorem cost_linesText (n : Nat) {items : List (List Char × Value)}
    (h : ∀ i ∈ items, cost i.1 = i.2.cost) :
    cost (linesText n items) = (Value.array (items.map Prod.snd)).cost :=
  cost_array (cost_newLine _) (cost_newLine _) (cost_newLine _) h

theorem cost_blockText (n : Nat) {ms : List Member}
    (h : ∀ m ∈ ms, cost m.text = m.value.cost) :
    cost (blockText n ms) = (Value.object (ms.map Member.entry)).cost :=
  cost_object (cost_newLine _) (cost_newLine _) (cost_newLine _) h

end Json
