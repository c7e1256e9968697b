import Rdwarfs.Lib.Utf8
import Rdwarfs.Source.Error

/-!
# Thrift compact protocol

metadata/thrift.rs:18-313. A reader walks a byte string and keeps the last field id of the
struct it is in, and those of the enclosing structs on a stack. Signed 8-bit values and boolean
list elements, which nothing in the crate reads, are not modelled.
-/
namespace Rdwarfs.Source.Metadata

open Lib.Machine

inductive TType where
  | stop
  | boolTrue
  | boolFalse
  | i8
  | i16
  | i32
  | i64
  | double
  | binary
  | list
  | set
  | map
  | struct
  deriving DecidableEq, Repr

namespace Thrift

def decodeError (message : String) : Error := .decode "thrift" message

end Thrift

open Thrift

def TType.fromCode (code : UInt8) : Result TType :=
  match (code &&& 0x0F).toNat with
  | 0 => .ok .stop
  | 1 => .ok .boolTrue
  | 2 => .ok .boolFalse
  | 3 => .ok .i8
  | 4 => .ok .i16
  | 5 => .ok .i32
  | 6 => .ok .i64
  | 7 => .ok .double
  | 8 => .ok .binary
  | 9 => .ok .list
  | 10 => .ok .set
  | 11 => .ok .map
  | 12 => .ok .struct
  | other => fail (decodeError s!"unknown thrift type code {other}")

/-- The `Debug` rendering. -/
def TType.debug : TType → String
  | .stop => "Stop"
  | .boolTrue => "BoolTrue"
  | .boolFalse => "BoolFalse"
  | .i8 => "I8"
  | .i16 => "I16"
  | .i32 => "I32"
  | .i64 => "I64"
  | .double => "Double"
  | .binary => "Binary"
  | .list => "List"
  | .set => "Set"
  | .map => "Map"
  | .struct => "Struct"

structure FieldHeader where
  ttype : TType
  id : Int16
  deriving DecidableEq, Repr

structure ThriftReader where
  bytes : Bytes
  pos : Nat
  lastFieldId : Int16
  stack : List Int16
  deriving DecidableEq, Repr

/-- A step of the reader: it fails, or answers and moves on. -/
abbrev Reader (α : Type) := StateT ThriftReader (Except (Failure Error)) α

namespace ThriftReader

def new (bytes : Bytes) : ThriftReader where
  bytes := bytes
  pos := 0
  lastFieldId := 0
  stack := []

def remaining (reader : ThriftReader) : Nat := reader.bytes.length - reader.pos

def unexpectedEnd : Error := decodeError "unexpected end of thrift input"

def failWith {α : Type} (reason : Error) : Reader α := fun _ => fail reason

def readByte : Reader UInt8 := fun reader =>
  match reader.bytes[reader.pos]? with
  | none => fail unexpectedEnd
  | some byte => .ok (byte, { reader with pos := reader.pos + 1 })

def readSlice (len : Nat) : Reader Bytes := fun reader => do
  let stop ← okOr (checkedAddWord reader.pos len) (decodeError "length overflow in thrift input")
  refuseIf (stop > reader.bytes.length)
    (decodeError s!"thrift slice of {len} bytes at {reader.pos} runs past end")
  let taken ← slice reader.bytes reader.pos stop
  return (taken, { reader with pos := stop })

/-- The varint loop: `rounds` bytes may still be read, the next one `shift` bits up. The
shift stays below 64, where it cannot fail, but bits past the word are dropped. -/
def readVarintFrom : (rounds : Nat) → (result shift : UInt64) → Reader UInt64
  | 0, _, _ => failWith (decodeError "varint too long")
  | rounds + 1, result, shift => do
    let byte ← readByte
    let chunk := (byte &&& 0x7F).toUInt64
    let result := result ||| (chunk <<< shift)
    if byte &&& 0x80 = 0 then return result
    else readVarintFrom rounds result (shift + 7)

def readVarintU64 : Reader UInt64 := readVarintFrom 10 0 0

/-- `((v >> 1) as i64) ^ -((v & 1) as i64)` -/
def unzigzag (v : UInt64) : Int :=
  if v.toNat % 2 = 0 then (v.toNat / 2 : Nat) else -((v.toNat / 2 : Nat) : Int) - 1

/-- The same on 64-bit words, shift by shift. -/
def unzigzagWord (v : UInt64) : Int64 := (v >>> 1).toInt64 ^^^ -(v &&& 1).toInt64

def readZigzagI64 : Reader Int64 := do
  let v ← readVarintU64
  return unzigzagWord v

def readI64 : Reader Int := do
  let v ← readVarintU64
  return unzigzag v

def readI16 : Reader Int16 := do
  let v ← readI64
  if -(2 ^ 15) ≤ v ∧ v < 2 ^ 15 then return Int16.ofInt v
  else failWith (decodeError s!"value {v} out of range for i16")

def readI32 : Reader Int32 := do
  let v ← readI64
  if -(2 ^ 31) ≤ v ∧ v < 2 ^ 31 then return Int32.ofInt v
  else failWith (decodeError s!"value {v} out of range for i32")

def readBinary : Reader Bytes := do
  let len ← readVarintU64
  readSlice len.toNat

def readString : Reader String := do
  let bytes ← readBinary
  match Lib.Utf8.decode bytes with
  | some text => return text
  | none => failWith (decodeError "non-utf8 thrift string")

/-- `u32::try_from` on a length. -/
def lengthWord (what : String) (length : UInt64) : Reader Nat :=
  if length.toNat < 2 ^ 32 then return length.toNat
  else failWith (decodeError s!"{what} length {length} exceeds u32")

def readTType (code : UInt8) : Reader TType := fun reader => do
  let ttype ← TType.fromCode code
  return (ttype, reader)

/-- A list or set header: element type and count. -/
def readListHeader : Reader (TType × Nat) := do
  let header ← readByte
  let elementType ← readTType header
  let small := (header >>> 4) &&& 0x0F
  if small = 0x0F then
    let big ← readVarintU64
    let count ← lengthWord "list" big
    return (elementType, count)
  else return (elementType, small.toNat)

def readSetHeader : Reader (TType × Nat) := readListHeader

/-- Key type, value type and count; an empty map has no type byte. -/
def readMapHeader : Reader (TType × TType × Nat) := do
  let length ← readVarintU64
  let count ← lengthWord "map" length
  if count = 0 then return (.stop, .stop, 0)
  else
    let types ← readByte
    let key ← readTType (types >>> 4)
    let value ← readTType (types &&& 0x0F)
    return (key, value, count)

def readStructBegin : Reader Unit := fun reader =>
  .ok ((), { reader with stack := reader.lastFieldId :: reader.stack, lastFieldId := 0 })

def readStructEnd : Reader Unit := fun reader =>
  .ok ((), { reader with stack := reader.stack.tail, lastFieldId := reader.stack.headD 0 })

def setLastFieldId (id : Int16) : Reader Unit := fun reader =>
  .ok ((), { reader with lastFieldId := id })

/-- The id of a short-form header. -/
def addDelta (delta : UInt8) : Reader Int16 := fun reader =>
  let id := reader.lastFieldId.toInt + delta.toNat
  if id < 2 ^ 15 then .ok (Int16.ofInt id, reader)
  else fail (decodeError "field id delta overflow")

/-- The next field header of the current struct, `none` at its end. -/
def readFieldHeader : Reader (Option FieldHeader) := do
  let byte ← readByte
  if byte = 0 then return none
  else
    let ttype ← readTType (byte &&& 0x0F)
    let delta := (byte >>> 4) &&& 0x0F
    let id ← if delta = 0 then readI16 else addDelta delta
    setLastFieldId id
    return some { ttype, id }

/-- `while let Some(field) = self.read_field_header()?`. Every round reads a byte, so as
many rounds as there are bytes left end in the error of a read past the end. -/
def whileFields {σ : Type} (body : FieldHeader → σ → Reader σ) : Nat → σ → Reader σ
  | 0, _ => failWith unexpectedEnd
  | rounds + 1, state => do
    match ← readFieldHeader with
    | none => return state
    | some header =>
      let state ← body header state
      whileFields body rounds state

/-- `for _ in 0..count` -/
def repeatFor (body : Reader Unit) : Nat → Reader Unit
  | 0 => return ()
  | count + 1 => do
    body
    repeatFor body count

/-- Skip a value. `depth` bounds the nesting: a container reads its header before it
nests, so the bytes left are bound enough. -/
def skipValueIn : (depth : Nat) → TType → Reader Unit
  | _, .stop | _, .boolTrue | _, .boolFalse => return ()
  | _, .i8 => do
    let _ ← readByte
  | _, .i16 | _, .i32 | _, .i64 => do
    let _ ← readVarintU64
  | _, .double => do
    let _ ← readSlice 8
  | _, .binary => do
    let _ ← readBinary
  | 0, _ => failWith unexpectedEnd
  | depth + 1, .list | depth + 1, .set => do
    let (elementType, count) ← readListHeader
    repeatFor (skipElement depth elementType) count
  | depth + 1, .map => do
    let (keyType, valueType, count) ← readMapHeader
    repeatFor (do skipElement depth keyType; skipElement depth valueType) count
  | depth + 1, .struct => do
    readStructBegin
    whileFields (fun header _ => skipValueIn depth header.ttype) (depth + 1) ()
    readStructEnd
where
  /-- A container's booleans take a byte, those of a struct none. -/
  skipElement (depth : Nat) : TType → Reader Unit
    | .boolTrue | .boolFalse => do
      let _ ← readByte
    | other => skipValueIn depth other

def skipValue (ttype : TType) : Reader Unit := fun reader =>
  skipValueIn reader.remaining ttype reader

end ThriftReader

section Writers

/-- The tests' `write_varint`. -/
def writeVarint (value : UInt64) : Bytes :=
  let byte := (value &&& 0x7F).toUInt8
  if value >>> 7 ≠ 0 then (byte ||| 0x80) :: writeVarint (value >>> 7) else [byte]
termination_by value.toNat
decreasing_by
  rename_i more
  have positive : (value >>> 7).toNat ≠ 0 := fun zero => more (UInt64.toNat_inj.mp zero)
  rw [UInt64.toNat_shiftRight, Nat.shiftRight_eq_div_pow] at positive ⊢
  exact Nat.div_lt_self (Nat.pos_of_ne_zero fun zero => positive (by rw [zero]; rfl)) (by decide)

/-- The tests' `write_zigzag`. -/
def writeZigzag (value : Int64) : Bytes :=
  writeVarint ((value <<< 1) ^^^ (value >>> 63)).toUInt64

end Writers

end Rdwarfs.Source.Metadata
