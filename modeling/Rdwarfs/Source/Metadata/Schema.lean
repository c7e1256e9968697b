import Rdwarfs.Source.Metadata.Thrift

/-!
# The Frozen2 schema

metadata/schema.rs:19-219: for each type the metadata touches, how its fields map into the
bit-packed blob. Ids are signed 16-bit words; maps keep the last value of a key.
-/
namespace Rdwarfs.Source.Metadata

open Lib.Machine

/-- `BTreeMap<i16, _>` -/
abbrev IdMap (α : Type) := List (Int16 × α)

namespace IdMap

variable {α : Type}

def get (map : IdMap α) (id : Int16) : Option α := (map.find? (·.1 == id)).map (·.2)

def insert (map : IdMap α) (id : Int16) (value : α) : IdMap α :=
  (id, value) :: map.filter (·.1 != id)

theorem get_insert (map : IdMap α) (id other : Int16) (value : α) :
    (map.insert id value).get other = if other = id then some value else map.get other := by
  simp only [get, insert, List.find?_cons]
  by_cases same : other = id
  · simp [same]
  · have ne : (id == other) = false := by simpa using Ne.symm same
    have kept : (map.filter (·.1 != id)).find? (·.1 == other) = map.find? (·.1 == other) := by
      rw [List.find?_filter]
      congr 1
      funext entry
      by_cases here : entry.1 = other
      · simp [here, same]
      · simp [here]
    simp [ne, same, kept]

end IdMap

structure Field where
  layoutId : Int16
  /-- A byte offset, or minus a bit offset when negative. -/
  offset : Int16
  deriving DecidableEq, Repr

structure Layout where
  /-- Byte size of the value when stored inline. -/
  size : UInt32
  /-- Bit width of an integral layout. -/
  bits : UInt16
  fields : IdMap Field
  typeName : String
  deriving DecidableEq, Repr

namespace Layout

def empty : Layout where
  size := 0
  bits := 0
  fields := []
  typeName := ""

def field (layout : Layout) (id : Int16) : Option Field := layout.fields.get id

end Layout

structure Schema where
  fileVersion : Int32
  relaxTypeChecks : Bool
  layouts : IdMap Layout
  rootLayout : Int16
  deriving DecidableEq, Repr

namespace Schema

open ThriftReader

def decodeError (message : String) : Error := .decode "frozen2-schema" message

def readField : Reader Field := fun reader => (do
  readStructBegin
  let field ← whileFields (fun header field =>
      match header.id, header.ttype with
      | 1, .i16 => do return { field with layoutId := ← readI16 }
      | 2, .i16 => do return { field with offset := ← readI16 }
      | _, ttype => do
        skipValue ttype
        return field)
    (reader.remaining + 1) { layoutId := 0, offset := 0 }
  readStructEnd
  return field : Reader Field) reader

/-- The body shared by the two map readers: `count` keyed structs. -/
def readEntries {α : Type} (readValue : Reader α) : Nat → IdMap α → Reader (IdMap α)
  | 0, out => return out
  | count + 1, out => do
    let key ← readI16
    let value ← readValue
    readEntries readValue count (out.insert key value)

/-- `read_layout_map` and `read_field_map`, which differ in their values and in `what`
their error calls them. -/
def readIdMap {α : Type} (what : String) (readValue : Reader α) : Reader (IdMap α) := do
  let (keyType, valueType, count) ← readMapHeader
  if count > 0 ∧ (keyType ≠ .i16 ∨ valueType ≠ .struct) then
    failWith (decodeError
      s!"{what} map has unexpected key/value types {keyType.debug}/{valueType.debug}")
  else readEntries readValue count []

def readFieldMap : Reader (IdMap Field) := readIdMap "field" readField

def readLayout : Reader Layout := fun reader => (do
  readStructBegin
  let layout ← whileFields (fun header layout =>
      match header.id, header.ttype with
      | 1, .i32 => do
        let v ← readI32
        if v.toInt < 0 then failWith (decodeError s!"layout size {v} is negative")
        else return { layout with size := UInt32.ofNat v.toInt.toNat }
      | 2, .i16 => do
        let v ← readI16
        if v.toInt < 0 then failWith (decodeError s!"layout bits {v} is negative")
        else return { layout with bits := UInt16.ofNat v.toInt.toNat }
      | 3, .map => do return { layout with fields := ← readFieldMap }
      | 4, .binary => do return { layout with typeName := ← readString }
      | _, ttype => do
        skipValue ttype
        return layout)
    (reader.remaining + 1) Layout.empty
  readStructEnd
  return layout : Reader Layout) reader

def readLayoutMap : Reader (IdMap Layout) := readIdMap "layout" readLayout

def readSchema : Reader Schema := fun reader => (do
  readStructBegin
  let schema ← whileFields (fun header schema =>
      match header.id, header.ttype with
      | 1, .boolTrue => return { schema with relaxTypeChecks := true }
      | 1, .boolFalse => return { schema with relaxTypeChecks := false }
      | 2, .map => do return { schema with layouts := ← readLayoutMap }
      | 3, .i16 => do return { schema with rootLayout := ← readI16 }
      | 4, .i32 => do return { schema with fileVersion := ← readI32 }
      | _, ttype => do
        skipValue ttype
        return schema)
    (reader.remaining + 1)
    { fileVersion := 0, relaxTypeChecks := false, layouts := [], rootLayout := 0 }
  readStructEnd
  return schema : Reader Schema) reader

/-- Parse a compact-encoded schema blob. -/
def parse (bytes : Bytes) : Result Schema := do
  let (schema, _) ← readSchema (ThriftReader.new bytes)
  return schema

def root (schema : Schema) : Result Layout :=
  okOr (schema.layouts.get schema.rootLayout)
    (decodeError s!"root layout id {schema.rootLayout} not present")

def layout (schema : Schema) (id : Int16) : Result Layout :=
  okOr (schema.layouts.get id) (decodeError s!"layout id {id} not present")

end Schema

end Rdwarfs.Source.Metadata
