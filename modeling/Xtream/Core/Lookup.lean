import Xtream.Core.Record

/-!
# Fields by name

`field(name)` finds the index of the name in the schema and uses it on the stored fields. The schema
and the record grow independently: nothing keeps their lengths in step, and only `field(index)`
asserts that the index is below the number of stored fields.

* `fieldIndex_eq_some`, `fieldIndex_eq_none`: the index that is found;
* `lookup_agrees_iff`: when `field(name)` is `field(index)`.
-/

namespace Xtream

namespace StreamSchema

variable {s : StreamSchema} {name : String} {i : Nat}

/-- The first field with the name is the one with the index. -/
def IsFirst (s : StreamSchema) (name : String) (i : Nat) : Prop :=
  (∃ f, s.fields[i]? = some f ∧ f.name = name) ∧
    ∀ j f, j < i → s.fields[j]? = some f → f.name ≠ name

theorem fieldIndex_eq_some : s.fieldIndex name = some i ↔ s.IsFirst name i := by
  unfold fieldIndex IsFirst
  rw [List.findIdx?_eq_some_iff_getElem]
  constructor
  · rintro ⟨hi, hname, hfirst⟩
    refine ⟨⟨s.fields[i], List.getElem?_eq_getElem hi, by simpa using hname⟩, fun j f hj hf => ?_⟩
    obtain ⟨hlt, rfl⟩ := List.getElem?_eq_some_iff.mp hf
    simpa using hfirst j hj
  · rintro ⟨⟨f, hf, hname⟩, hfirst⟩
    obtain ⟨hi, rfl⟩ := List.getElem?_eq_some_iff.mp hf
    refine ⟨hi, by simpa using hname, fun j hj => ?_⟩
    simpa using hfirst j _ hj (List.getElem?_eq_getElem (hj.trans hi))

theorem fieldIndex_eq_none : s.fieldIndex name = none ↔ ∀ f ∈ s.fields, f.name ≠ name := by
  unfold fieldIndex
  rw [List.findIdx?_eq_none_iff]
  refine forall₂_congr fun f _ => ?_
  simp

end StreamSchema

namespace Record

/-- A record over the schema, after an `add_field` for each of the values. -/
def filled (schema : StreamSchema) (values : List FieldValue) : Record :=
  values.foldl addField ⟨some schema, []⟩

theorem foldl_addField (values : List FieldValue) (r : Record) :
    values.foldl addField r = { r with fields := r.fields ++ values } := by
  induction values generalizing r with
  | nil => simp
  | cons v values ih =>
    rw [List.foldl_cons, ih]
    simp [addField]

theorem filled_eq (schema : StreamSchema) (values : List FieldValue) :
    filled schema values = ⟨some schema, values⟩ := foldl_addField values _

/-- What `field(name)` returns for a name of the schema. -/
theorem fieldByName_of_isFirst {schema : StreamSchema} {values : List FieldValue} {name : String}
    {i : Nat} (h : schema.IsFirst name i) : (filled schema values).fieldByName name =
      match values[i]? with
      | some v => .ok v
      | none => .error .undefined := by
  have hindex := StreamSchema.fieldIndex_eq_some.mpr h
  rw [filled_eq]
  unfold fieldByName
  cases hvalue : values[i]? <;> simp [hindex, hvalue]

/-- `field(name)` is `field(i)` for the first field `i` with the name, it fails an assertion if
there is none, and it stays within the stored fields. -/
def LookupAgrees (r : Record) (schema : StreamSchema) (name : String) : Prop :=
  (∀ i, schema.IsFirst name i → r.fieldByName name = r.field i) ∧
    ((∀ f ∈ schema.fields, f.name ≠ name) → r.fieldByName name = .error .assertion) ∧
    r.fieldByName name ≠ .error .undefined

/-- **When lookup by name agrees with lookup by index**: iff the field has been added. -/
theorem lookup_agrees_iff (schema : StreamSchema) (values : List FieldValue) (name : String) :
    (filled schema values).LookupAgrees schema name ↔
      ∀ i, schema.IsFirst name i → i < values.length := by
  constructor
  · rintro ⟨-, -, hdefined⟩ i hi
    by_contra hle
    refine hdefined ?_
    rw [fieldByName_of_isFirst hi, List.getElem?_eq_none (Nat.le_of_not_lt hle)]
  · intro hlt
    refine ⟨fun i hi => ?_, fun hnone => ?_, ?_⟩
    · rw [fieldByName_of_isFirst hi, field, filled_eq, List.getElem?_eq_getElem (hlt i hi)]
    · rw [filled_eq]
      unfold fieldByName
      simp only [StreamSchema.fieldIndex_eq_none.mpr hnone]
    · cases hidx : schema.fieldIndex name with
      | none =>
        rw [filled_eq]
        unfold fieldByName
        simp [hidx]
      | some i =>
        have hi := StreamSchema.fieldIndex_eq_some.mp hidx
        rw [fieldByName_of_isFirst hi, List.getElem?_eq_getElem (hlt i hi)]
        simp

/-- A schema with one field, and a record without fields: the index is past the end. -/
theorem lookup_past_end :
    ¬ (filled ⟨[⟨"id", .i64⟩]⟩ []).LookupAgrees ⟨[⟨"id", .i64⟩]⟩ "id" := fun h =>
  h.2.2 rfl

end Record

end Xtream
