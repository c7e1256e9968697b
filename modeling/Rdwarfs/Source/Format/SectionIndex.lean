import Rdwarfs.Source.Format.Header
import Rdwarfs.Source.Format.ImageSource

/-!
# The optional section index

format/index.rs:18-145. Each 64-bit row holds a section type in its top 16 bits and an
offset from the first section in the rest; the index lists itself last, which is
how its presence is guessed from the last row of the file.
-/
namespace Rdwarfs.Source.Format

open Lib.Machine

structure IndexEntry where
  sectionType : SectionType
  offsetFromBase : Nat
  deriving DecidableEq, Repr

structure SectionIndex where
  entries : List IndexEntry
  fileOffset : Nat
  deriving DecidableEq, Repr

namespace SectionIndex

/-- `(raw >> 48) & 0xFFFF`, as a section type number. -/
def typeOf (raw : Nat) : UInt16 := UInt16.ofNat (raw / 2 ^ 48)

/-- `raw & OFFSET_MASK` -/
def offsetOf (raw : Nat) : Nat := raw % 2 ^ 48

/-- `payload.chunks_exact(8)` -/
def rows : Bytes → List Nat
  | b0 :: b1 :: b2 :: b3 :: b4 :: b5 :: b6 :: b7 :: rest =>
    leNat [b0, b1, b2, b3, b4, b5, b6, b7] :: rows rest
  | _ => []

/-- The entry loop; `previous` is the offset of the row before. -/
def collectEntries (previous : Option Nat) : List Nat → Result (List IndexEntry)
  | [] => .ok []
  | raw :: rest => do
    let offset := offsetOf raw
    refuseIf (previous.any (offset ≤ ·))
      (.corruptSectionIndex "entries not strictly sorted by offset")
    let entries ← collectEntries (some offset) rest
    return { sectionType := .fromU16 (typeOf raw), offsetFromBase := offset } :: entries

def parseEntries (payload : Bytes) (fileOffset : Nat) : Result SectionIndex := do
  refuseIf (payload.length % 8 ≠ 0)
    (.corruptSectionIndex "payload length is not a multiple of 8")
  refuseIf (payload.length / 8 = 0) (.corruptSectionIndex "index has zero entries")
  let entries ← collectEntries none (rows payload)
  match entries.getLast? with
  | none => panicked
  | some last =>
    refuseIf (last.sectionType ≠ .sectionIndex)
      (.corruptSectionIndex "last entry is not the index itself")
    return { entries, fileOffset }

/-- `from_source` once the row `entry` at the end of the file claims to be an index. -/
def locate (build : Build) (source : ImageSource) (baseOffset entry : Nat) :
    Result SectionIndex := do
  let total := source.len
  let headerFileOffset ← okOr (checkedAddWord baseOffset (offsetOf entry))
    (.corruptSectionIndex "tail offset overflows file size")
  refuseIf (saturatingAddWord headerFileOffset headerLen > total)
    (.corruptSectionIndex "tail offset past end of image")
  let headerBytes ← source.readExactAt headerLen headerFileOffset
  let header ← SectionHeader.parse headerBytes headerFileOffset
  refuseIf (header.sectionType ≠ .sectionIndex)
    (.corruptSectionIndex "tail offset does not point to SECTION_INDEX")
  refuseIf (header.compression ≠ .none)
    (.corruptSectionIndex "section index must be uncompressed")
  let payloadStart ← (Arith.machine build).add headerFileOffset headerLen
  let payloadEnd ← okOr (checkedAddWord payloadStart header.payloadLen.toNat)
    (.corruptSectionIndex "payload length overflows")
  refuseIf (payloadEnd ≠ total)
    (.corruptSectionIndex "section index must be the last section")
  let payload ← source.readRange payloadStart header.payloadLen.toNat
  parseEntries payload headerFileOffset

def fromSource (build : Build) (source : ImageSource) (baseOffset : Nat) :
    Result (Option SectionIndex) :=
  let total := source.len
  if total < 8 then .ok none
  else do
    let tail ← source.readExactAt 8 (total - 8)
    let entry := leNat tail
    if typeOf entry ≠ SectionType.sectionIndex.asU16 then .ok none
    else
      let index ← locate build source baseOffset entry
      return some index

/-- Offset from the base of the first section of the given type. -/
def find (index : SectionIndex) (kind : SectionType) : Option Nat :=
  (index.entries.find? (·.sectionType == kind)).map (·.offsetFromBase)

/-- The last row of the file claims to be an index: its two highest bytes are 9, 0. -/
def TailMarked (image : Bytes) : Prop := field image (image.length - 2) 2 = [9, 0]

instance (image : Bytes) : Decidable (TailMarked image) :=
  inferInstanceAs (Decidable (_ = _))

end SectionIndex

end Rdwarfs.Source.Format
