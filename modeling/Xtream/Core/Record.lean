import Xtream.Core.Basic

/-!
# Records and their schema (`src/core/stream_schema.h`, `src/core/record.h`)

The engine stores field values and gives them back, it never computes with them. A `float`/`double`
is held as its bit pattern. Of the ways to make and read a value only those of an `i32` are here.
-/

namespace Xtream

inductive TypeKind
  | i32
  | i64
  | u32
  | u64
  | f32
  | f64
  | string
  deriving DecidableEq, Repr

structure StreamSchema.Field where
  name : String
  type : TypeKind
  deriving DecidableEq, Repr

structure StreamSchema where
  fields : List StreamSchema.Field := []
  deriving DecidableEq, Repr

namespace StreamSchema

def addField (s : StreamSchema) (name : String) (type : TypeKind) : StreamSchema :=
  { s with fields := s.fields ++ [⟨name, type⟩] }

/-- The index of the first field with this name. -/
def fieldIndex (s : StreamSchema) (name : String) : Option Nat :=
  s.fields.findIdx? fun f => f.name == name

end StreamSchema

/-- The tagged union of `record.h`: the value is in the storage that `kind` selects. -/
structure FieldValue where
  kind : TypeKind := .i32
  intStorage : Int64 := 0
  floatStorage : UInt64 := 0
  stringStorage : String := ""
  deriving DecidableEq, Repr

namespace FieldValue

def makeI32 (v : Int32) : FieldValue := { kind := .i32, intStorage := v.toInt64 }

def asI32 (v : FieldValue) : Except Fault Int32 :=
  if v.kind = .i32 then .ok v.intStorage.toInt32 else .error .assertion

end FieldValue

/-- A row: its schema (a `shared_ptr` that may be null) and the fields added so far. -/
structure Record where
  schema : Option StreamSchema
  fields : List FieldValue := []
  deriving DecidableEq, Repr

namespace Record

def addField (r : Record) (value : FieldValue) : Record := { r with fields := r.fields ++ [value] }

/-- `field(size_t)`: the index is asserted. -/
def field (r : Record) (index : Nat) : Except Fault FieldValue :=
  match r.fields[index]? with
  | some v => .ok v
  | none => .error .assertion

/-- `field(std::string_view)`: only that the schema has the name is asserted; the index found in
the schema is used on the stored fields without a check. -/
def fieldByName (r : Record) (name : String) : Except Fault FieldValue :=
  match r.schema with
  | none => .error .undefined
  | some schema =>
    match schema.fieldIndex name with
    | none => .error .assertion
    | some idx =>
      match r.fields[idx]? with
      | some v => .ok v
      | none => .error .undefined

end Record

end Xtream
