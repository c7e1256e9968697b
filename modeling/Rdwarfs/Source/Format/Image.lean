import Rdwarfs.Source.Compression
import Rdwarfs.Source.Format.Detect
import Rdwarfs.Source.Format.SectionIndex

/-!
# Images

format/image.rs:22-47, 62-78, 107-176, 193-201, 238-274: every section header from the base to
the end of the source, the index when there is one, and the payload of a section on demand, its
hash checked first. An image keeps its source by value, and its `Debug` output is not modelled.
-/
namespace Rdwarfs.Source.Format

open Lib.Machine Codecs

structure SectionRecord where
  fileOffset : Nat
  header : SectionHeader
  deriving DecidableEq, Repr

structure Image where
  source : ImageSource
  baseOffset : Nat
  sections : List SectionRecord
  sectionIndex : Option SectionIndex

/-- Walk forward by each section's recorded length. -/
def walkSections (build : Build) (source : ImageSource) (cursor : Nat) :
    Result (List SectionRecord) :=
  if cursor < source.len then do
    let headerEnd ← (Arith.machine build).add cursor headerLen
    refuseIf (headerEnd > source.len) (.truncatedHeader cursor)
    let header ← source.readExactAt headerLen cursor
    let parsed ← SectionHeader.parse header cursor
    match _next : (checkedAddWord cursor parsed.sectionLen).filter (· ≤ source.len) with
    | none => fail (.truncatedSection parsed.number cursor)
    | some next =>
      let rest ← walkSections build source next
      return { fileOffset := cursor, header := parsed } :: rest
  else .ok []
termination_by source.len - cursor
decreasing_by
  simp only [Option.filter_eq_some_iff, checkedAddWord_eq_some, decide_eq_true_eq] at _next
  have long := parsed.headerLen_le_sectionLen
  simp only [headerLen] at long
  omega

namespace Image

def build (arith : Build) (source : ImageSource) : Result Image := do
  let baseOffset ← detectBaseOffsetIn arith source
  let sections ← walkSections arith source baseOffset
  let sectionIndex ← SectionIndex.fromSource arith source baseOffset
  return { source, baseOffset, sections, sectionIndex }

abbrev fromSource := build

/-- The image in `len` bytes at `offset` of `source`. -/
def fromWindow (arith : Build) (source : ImageSource) (offset len : Nat) : Result Image := do
  let window ← WindowedSource.new source offset len
  fromSource arith (window.source arith)

def findSection (image : Image) (kind : SectionType) : Option SectionRecord :=
  image.sections.find? (·.header.sectionType == kind)

def readRange (image : Image) (offset len : Nat) : Result Bytes :=
  image.source.readRange offset len

/-- Header and payload. -/
def sectionBytes (image : Image) (record : SectionRecord) : Result Bytes :=
  image.readRange record.fileOffset record.header.sectionLen

def xxhCoverStart : Nat := 0x30

def verifyXxh3 (libs : Libraries) (header : SectionHeader) (sectionBytes : Bytes) :
    Result Unit := do
  let covered ← slice sectionBytes xxhCoverStart sectionBytes.length
  if libs.xxh3 covered = header.xxh3_64 then .ok ()
  else fail (.integrityMismatch header.number "xxh3")

def decompressSection (libs : Libraries) (image : Image) (record : SectionRecord) (cap : Nat) :
    Result Bytes := do
  let bytes ← image.sectionBytes record
  verifyXxh3 libs record.header bytes
  let payload ← slice bytes headerLen bytes.length
  decompress libs record.header.compression payload cap

def decompressSectionPrefix (libs : Libraries) (image : Image) (record : SectionRecord)
    (needed : Nat) : Result (Option Bytes) := do
  let bytes ← image.sectionBytes record
  verifyXxh3 libs record.header bytes
  let payload ← slice bytes headerLen bytes.length
  decompressPrefix libs record.header.compression payload needed

end Image

end Rdwarfs.Source.Format
