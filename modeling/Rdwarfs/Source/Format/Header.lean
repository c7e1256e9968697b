import Rdwarfs.Source.Error

/-!
# Section headers

format/types.rs:9-128 and format/header.rs:22-142: the 64-byte header in front of every section.
Hashes are carried, not checked, at this level.
-/
namespace Rdwarfs.Source.Format

open Lib.Machine

inductive SectionType where
  | block
  | metadataV2Schema
  | metadataV2
  | sectionIndex
  | history
  | unknown (value : UInt16)
  deriving DecidableEq, Repr

def SectionType.fromU16 (value : UInt16) : SectionType :=
  if value = 0 then .block
  else if value = 7 then .metadataV2Schema
  else if value = 8 then .metadataV2
  else if value = 9 then .sectionIndex
  else if value = 10 then .history
  else .unknown value

def SectionType.asU16 : SectionType → UInt16
  | .block => 0
  | .metadataV2Schema => 7
  | .metadataV2 => 8
  | .sectionIndex => 9
  | .history => 10
  | .unknown value => value

/-- The `Debug` rendering. -/
def SectionType.debug : SectionType → String
  | .block => "Block"
  | .metadataV2Schema => "MetadataV2Schema"
  | .metadataV2 => "MetadataV2"
  | .sectionIndex => "SectionIndex"
  | .history => "History"
  | .unknown value => s!"Unknown({value})"

theorem SectionType.asU16_fromU16 (value : UInt16) : (fromU16 value).asU16 = value := by
  unfold fromU16
  repeat' split
  all_goals simp_all [asU16]

inductive Compression where
  | none
  | lzma
  | zstd
  | lz4
  | lz4Hc
  | brotli
  | flac
  | ricepp
  | unknown (value : UInt16)
  deriving DecidableEq, Repr

def Compression.fromU16 (value : UInt16) : Compression :=
  if value = 0 then .none
  else if value = 1 then .lzma
  else if value = 2 then .zstd
  else if value = 3 then .lz4
  else if value = 4 then .lz4Hc
  else if value = 5 then .brotli
  else if value = 6 then .flac
  else if value = 7 then .ricepp
  else .unknown value

def Compression.asU16 : Compression → UInt16
  | .none => 0
  | .lzma => 1
  | .zstd => 2
  | .lz4 => 3
  | .lz4Hc => 4
  | .brotli => 5
  | .flac => 6
  | .ricepp => 7
  | .unknown value => value

theorem Compression.asU16_fromU16 (value : UInt16) : (fromU16 value).asU16 = value := by
  unfold fromU16
  repeat' split
  all_goals simp_all [asU16]

/-- "DWARFS" -/
def magic : Bytes := [0x44, 0x57, 0x41, 0x52, 0x46, 0x53]

def magicLen : Nat := 6

def supportedMajor : UInt8 := 2

def supportedMinor : UInt8 := 6

def headerLen : Nat := 64

structure SectionHeader where
  major : UInt8
  minor : UInt8
  sha512_256 : Bytes
  xxh3_64 : UInt64
  number : UInt32
  sectionType : SectionType
  compression : Compression
  payloadLen : UInt64
  deriving DecidableEq, Repr

/-- `offset` only enriches the errors. -/
def SectionHeader.parse (bytes : Bytes) (offset : Nat) : Result SectionHeader :=
  if bytes.length < headerLen then fail (.truncatedHeader offset)
  else if field bytes 0 magicLen ≠ magic then fail (.badMagic offset)
  else
    let major := bytes.getD 6 0
    let minor := bytes.getD 7 0
    if major ≠ supportedMajor ∨ minor > supportedMinor then fail (.unsupportedVersion major minor)
    else .ok {
      major := major
      minor := minor
      sha512_256 := field bytes 0x08 32
      xxh3_64 := UInt64.ofNat (leNat (field bytes 0x28 8))
      number := UInt32.ofNat (leNat (field bytes 0x30 4))
      sectionType := .fromU16 (UInt16.ofNat (leNat (field bytes 0x34 2)))
      compression := .fromU16 (UInt16.ofNat (leNat (field bytes 0x36 2)))
      payloadLen := UInt64.ofNat (leNat (field bytes 0x38 8)) }

/-- The on-disk form, each range of the buffer in its place: the magic, both version bytes, and
from 0x08, 0x28, 0x30, 0x34, 0x36 and 0x38 on one field each. -/
def SectionHeader.write (header : SectionHeader) : Bytes :=
  magic ++ [header.major, header.minor] ++ header.sha512_256
    ++ leBytes 8 header.xxh3_64.toNat
    ++ leBytes 4 header.number.toNat
    ++ leBytes 2 header.sectionType.asU16.toNat
    ++ leBytes 2 header.compression.asU16.toNat
    ++ leBytes 8 header.payloadLen.toNat

/-- Saturates, so that callers meet an unreadable length as an end past the image. -/
def SectionHeader.sectionLen (header : SectionHeader) : Nat :=
  saturatingAddWord headerLen header.payloadLen.toNat

theorem SectionHeader.sectionLen_eq (header : SectionHeader) :
    header.sectionLen = min (64 + header.payloadLen.toNat) (2 ^ 64 - 1) := rfl

theorem SectionHeader.headerLen_le_sectionLen (header : SectionHeader) :
    headerLen ≤ header.sectionLen := by
  rw [sectionLen_eq, headerLen]
  omega

theorem SectionHeader.parse_ne_panicked (bytes : Bytes) (offset : Nat) :
    SectionHeader.parse bytes offset ≠ panicked := by
  unfold SectionHeader.parse
  dsimp only
  repeat' split
  all_goals simp

/-- The version of a header is looked at only behind a magic, in a whole header. -/
theorem SectionHeader.magic_of_parse {bytes : Bytes} {offset : Nat} {outcome : Result SectionHeader}
    (parsed : SectionHeader.parse bytes offset = outcome)
    (whole : outcome ≠ fail (.truncatedHeader offset)) (begins : outcome ≠ fail (.badMagic offset)) :
    headerLen ≤ bytes.length ∧ field bytes 0 magicLen = magic := by
  unfold SectionHeader.parse at parsed
  by_cases short : bytes.length < headerLen
  · rw [if_pos short] at parsed
    exact absurd parsed.symm whole
  · rw [if_neg short] at parsed
    by_cases isMagic : field bytes 0 magicLen = magic
    · exact ⟨Nat.le_of_not_lt short, isMagic⟩
    · rw [if_pos isMagic] at parsed
      exact absurd parsed.symm begins

/-- The error of a header that does start with the magic names its version. -/
theorem SectionHeader.parse_of_magic {bytes : Bytes} {offset : Nat}
    (long : headerLen ≤ bytes.length) (isMagic : field bytes 0 magicLen = magic) :
    (∃ header, SectionHeader.parse bytes offset = .ok header) ∨
      SectionHeader.parse bytes offset =
        fail (.unsupportedVersion (bytes.getD 6 0) (bytes.getD 7 0)) := by
  unfold SectionHeader.parse
  dsimp only
  rw [if_neg (Nat.not_lt.mpr long), if_neg (by simp [isMagic])]
  split
  · exact Or.inr rfl
  · exact Or.inl ⟨_, rfl⟩

end Rdwarfs.Source.Format
