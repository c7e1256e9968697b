import Rdwarfs.Source.Metadata.Schema

/-!
# The Frozen2 decoder

metadata/bitbuf.rs:30-105 and metadata/frozen.rs:31-382. Values sit in a bit-packed blob at
positions computed from their layouts; a range records its count and a distance relative to its own
byte position.

Positions are words. `arith` is the arithmetic they are computed in: that of the two
builds, or the unbounded one that says where a value really is.
-/
namespace Rdwarfs.Source.Metadata

open Lib.Machine

section BitBuf

def bitbufError (message : String) : Error := .decode "frozen2-bitbuf" message

/-- `BitBuf::read_u64`: `numBits` bits from `bitOffset` on, lowest first. -/
def readU64 (arith : Arith) (bytes : Bytes) (bitOffset numBits : Nat) : Result Nat :=
  if numBits = 0 then .ok 0
  else do
    refuseIf (numBits > 64) (bitbufError s!"requested {numBits} bits, max is 64")
    let endBit ← okOr (arith.checkedAdd bitOffset numBits) (bitbufError "bit offset overflow")
    let bitLen ← arith.mul bytes.length 8
    refuseIf (endBit > bitLen)
      (bitbufError s!"read of {numBits} bits at {bitOffset} runs past end ({bitLen} bits)")
    let byteOff := bitOffset / 8
    let shift := bitOffset % 8
    let span := (shift + numBits + 7) / 8
    let window ← slice bytes byteOff (byteOff + span)
    return leNat window / 2 ^ shift % 2 ^ numBits

/-- `BitBuf::read_bool` -/
def readBool (arith : Arith) (bytes : Bytes) (bitOffset : Nat) : Result Bool := do
  let bit ← readU64 arith bytes bitOffset 1
  return bit ≠ 0

end BitBuf

/-- A byte anchor and a bit offset from it, which may exceed seven. -/
structure Pos where
  byte : Nat
  bit : Nat
  deriving DecidableEq, Repr

namespace Pos

def root : Pos := ⟨0, 0⟩

def absoluteBit (arith : Arith) (pos : Pos) : Nat :=
  arith.saturatingAdd (arith.saturatingMul pos.byte 8) pos.bit

/-- Position of a child field; both additions are plain. -/
def child (arith : Arith) (pos : Pos) (field : Field) : Result Pos :=
  if field.offset.toInt < 0 then do
    let bit ← arith.add pos.bit (-field.offset.toInt).toNat
    return { pos with bit }
  else do
    let byte ← arith.add pos.byte field.offset.toInt.toNat
    return { pos with byte }

end Pos

/-- Structural classification of a layout. -/
inductive LayoutKind where
  | integral (bits : UInt16)
  | struct
  | string
  | array (itemLayoutId : Int16)
  | optional (valueLayoutId : Option Int16)
  | empty
  deriving DecidableEq, Repr

namespace LayoutKind

/-- The `Debug` rendering. -/
def debug : LayoutKind → String
  | .integral bits => s!"Integral({bits})"
  | .struct => "Struct"
  | .string => "String"
  | .array item => s!"Array \x7b item_layout_id: {item} \x7d"
  | .optional (some value) => s!"Optional \x7b value_layout_id: Some({value}) \x7d"
  | .optional none => "Optional \x7b value_layout_id: None \x7d"
  | .empty => "Empty"

/-- Whether field 1 marks an optional: a one-bit integral. -/
def marksOptional (schema : Schema) (field : Option Field) : Result Bool :=
  match field with
  | none => .ok false
  | some f1 => do
    let l1 ← schema.layout f1.layoutId
    return l1.fields.isEmpty ∧ l1.bits = 1

/-- A layout without fields is integral, a one-bit integral field 1 makes an optional,
a field 3 an array, either of fields 1 and 2 alone a string. -/
def of (schema : Schema) (layout : Layout) : Result LayoutKind :=
  if layout.fields.isEmpty then
    if layout.bits = 0 ∧ layout.size = 0 then .ok .empty else .ok (.integral layout.bits)
  else do
    let isset ← marksOptional schema (layout.field 1)
    if isset then return .optional ((layout.field 2).map (·.layoutId))
    else
      match layout.field 3 with
      | some f3 => return .array f3.layoutId
      | none =>
        if (layout.field 1).isSome ∨ (layout.field 2).isSome then return .string
        else return .struct

end LayoutKind

/-- A resolved range: where its elements start and how many there are. -/
structure RangeView where
  dataByte : Nat
  count : Nat
  itemLayoutId : Option Int16
  deriving DecidableEq, Repr

structure OptionalView where
  present : Bool
  valuePos : Pos
  valueLayoutId : Option Int16
  deriving DecidableEq, Repr

structure Frozen where
  arith : Arith
  schema : Schema
  bytes : Bytes
  deriving DecidableEq, Repr

namespace Frozen

def decodeError (message : String) : Error := .decode "frozen2" message

variable (frozen : Frozen)

def child (pos : Pos) (field : Field) : Result Pos := pos.child frozen.arith field

def readIntegral (pos : Pos) (bits : UInt16) : Result Nat :=
  readU64 frozen.arith frozen.bytes (pos.absoluteBit frozen.arith) bits.toNat

/-- A sub-field of a range that holds a number; absent fields are zero. -/
def readRangeField (rangePos : Pos) (field : Option Field) : Result Nat :=
  match field with
  | none => .ok 0
  | some field => do
    let layout ← frozen.schema.layout field.layoutId
    let pos ← frozen.child rangePos field
    frozen.readIntegral pos layout.bits

/-- The distance is read only when there are elements. -/
def readDistance (rangePos : Pos) (rangeLayout : Layout) (count : Nat) : Result Nat :=
  if count = 0 then .ok 0 else frozen.readRangeField rangePos (rangeLayout.field 1)

/-- Resolve a range: `data_byte = range_pos.byte + distance`. -/
def readRange (rangePos : Pos) (rangeLayout : Layout) : Result RangeView := do
  let count ← frozen.readRangeField rangePos (rangeLayout.field 2)
  let distance ← frozen.readDistance rangePos rangeLayout count
  let dataByte ← okOr (frozen.arith.checkedAdd rangePos.byte distance)
    (decodeError "range distance overflow")
  return { dataByte, count, itemLayoutId := (rangeLayout.field 3).map (·.layoutId) }

def readOptional (optPos : Pos) (optLayout : Layout) : Result OptionalView := do
  let isset ← okOr (optLayout.field 1) (decodeError "expected sub-field with id 1")
  let issetPos ← frozen.child optPos isset
  let present ← readBool frozen.arith frozen.bytes (issetPos.absoluteBit frozen.arith)
  match optLayout.field 2 with
  | some value => do
    let valuePos ← frozen.child optPos value
    return { present, valuePos, valueLayoutId := some value.layoutId }
  | none => return { present, valuePos := optPos, valueLayoutId := none }

/-- The raw bytes of a string or binary range. -/
def readStringBytes (rangePos : Pos) (rangeLayout : Layout) : Result Bytes := do
  let range ← frozen.readRange rangePos rangeLayout
  let start := range.dataByte
  let stop ← okOr (frozen.arith.checkedAdd start range.count)
    (decodeError "string slice overflow")
  refuseIf (stop > frozen.bytes.length) (decodeError
    s!"string slice {start}..{stop} runs past buffer of {frozen.bytes.length} bytes")
  slice frozen.bytes start stop

/-- Position of element `i`: byte-sized items advance the byte anchor, inline integral
items the bit offset. -/
def elementPos (range : RangeView) (i : Nat) : Result Pos :=
  match range.itemLayoutId with
  | none => do
    let byte ← okOr (frozen.arith.checkedAdd range.dataByte i)
      (decodeError "string element offset overflow")
    return ⟨byte, 0⟩
  | some item => do
    let layout ← frozen.schema.layout item
    if layout.size > 0 then
      let off ← okOr (frozen.arith.checkedMul i layout.size.toNat)
        (decodeError "array element byte offset overflow")
      let byte ← okOr (frozen.arith.checkedAdd range.dataByte off)
        (decodeError "array element byte offset overflow")
      return ⟨byte, 0⟩
    else
      let bit ← okOr (frozen.arith.checkedMul i layout.bits.toNat)
        (decodeError "array element bit offset overflow")
      return ⟨range.dataByte, bit⟩

end Frozen

end Rdwarfs.Source.Metadata
