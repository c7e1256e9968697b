import Rdwarfs.Guarantees.OpenedFilesystem
import Rdwarfs.Source.Fs.Lookup
import Rdwarfs.Source.Fs.Read
import Rdwarfs.Source.Fs.Stat

/-!
# What a filesystem is made of

`Filesystem::open` and every later decode reach an image through its block, schema and metadata
sections. Where two images carry the same of those they open alike and answer every call alike,
whatever else is in them: a prefix, a history, an index, sections of types nobody knows, or the
same sections at other offsets of another kind of source.
-/
namespace Rdwarfs.Guarantees.SameSections

open Lib.Machine Lib.Oracle Source Source.Format Source.Metadata Source.Fs Source.Codecs
open OpenedFilesystem

/-- One section, found in two images. -/
structure SameSection (one other : Image) (left right : SectionRecord) : Prop where
  header : left.header = right.header
  bytes : one.sectionBytes left = other.sectionBytes right

/-- The sections a block number counts. -/
def blocksOf (image : Image) : List SectionRecord :=
  image.sections.filter (·.header.sectionType == .block)

/-- The two images carry the same blocks, schema and metadata. -/
structure Alike (one other : Image) : Prop where
  blocks : List.Forall₂ (SameSection one other) (blocksOf one) (blocksOf other)
  schema : Option.Rel (SameSection one other) (one.findSection .metadataV2Schema)
    (other.findSection .metadataV2Schema)
  metadata : Option.Rel (SameSection one other) (one.findSection .metadataV2)
    (other.findSection .metadataV2)

/-- The tables of `fs`, over another image. -/
def moved (fs : Filesystem) (image : Image) : Filesystem :=
  { fs with image, blockRecords := blocksOf image }

/-- Both filesystems answer every call alike. -/
structure SameAnswers (libs : Libraries) (one other : Filesystem) : Prop where
  stat : ∀ inode, other.stat inode = one.stat inode
  readLink : ∀ inode, other.readLink inode = one.readLink inode
  parent : ∀ inode, other.parent inode = one.parent inode
  contentId : ∀ inode, other.contentId inode = one.contentId inode
  readDir : ∀ inode, other.readDir inode = one.readDir inode
  lookupChild : ∀ inode name, other.lookupChild inode name = one.lookupChild inode name
  lookup : ∀ path, other.lookup path = one.lookup path
  walk : ∀ depth, other.walk depth = one.walk depth
  readInto : ∀ budget inode offset buf cache,
    (other.readInto inode offset buf).run (other.decodeBlock libs budget) cache =
      (one.readInto inode offset buf).run (one.decodeBlock libs budget) cache
  readBorrowed : ∀ budget inode offset len cache,
    other.readBorrowed libs budget inode offset len cache =
      one.readBorrowed libs budget inode offset len cache
  readFile : ∀ inode, other.readFile libs inode = one.readFile libs inode

/-- Both images fail to open with the same error, or open as the same filesystem. -/
def SameFilesystem (libs : Libraries) (build : Build) (one other : Image) : Prop :=
  (∀ failure, Filesystem.openImage libs build one = .error failure →
    Filesystem.openImage libs build other = .error failure) ∧
  ∀ fs, Filesystem.openImage libs build one = .ok fs →
    ∃ fs', Filesystem.openImage libs build other = .ok fs' ∧ SameAnswers libs fs fs'

section Records

variable {α : Type} {r : α → α → Prop}

theorem rel_cases {left right : Option α} (related : Option.Rel r left right) :
    (left = none ∧ right = none) ∨ ∃ a b, left = some a ∧ right = some b ∧ r a b := by
  cases related with
  | none => exact Or.inl ⟨rfl, rfl⟩
  | some same => exact Or.inr ⟨_, _, rfl, rfl, same⟩

theorem getElem?_related {left right : List α} (related : List.Forall₂ r left right) (i : Nat) :
    Option.Rel r left[i]? right[i]? := by
  induction related generalizing i with
  | nil => exact .none
  | cons same _ ih =>
    cases i with
    | zero => exact .some same
    | succ i => exact ih i

end Records

section Sections

variable {one other : Image}

theorem find?_related {left right : List SectionRecord}
    (related : List.Forall₂ (SameSection one other) left right) (kind : SectionType) :
    Option.Rel (SameSection one other) (left.find? (·.header.sectionType == kind))
      (right.find? (·.header.sectionType == kind)) := by
  induction related with
  | nil => exact .none
  | cons same _ ih =>
    rw [List.find?_cons, List.find?_cons, ← same.header]
    split
    · exact .some same
    · exact ih

theorem filter_related {left right : List SectionRecord}
    (related : List.Forall₂ (SameSection one other) left right) (kind : SectionType) :
    List.Forall₂ (SameSection one other) (left.filter (·.header.sectionType == kind))
      (right.filter (·.header.sectionType == kind)) := by
  induction related with
  | nil => exact .nil
  | cons same _ ih =>
    rw [List.filter_cons, List.filter_cons, ← same.header]
    split
    · exact .cons same ih
    · exact ih

/-- Images with the same sections throughout are alike. -/
theorem alike_of_sections
    (related : List.Forall₂ (SameSection one other) one.sections other.sections) :
    Alike one other where
  blocks := filter_related related .block
  schema := find?_related related .metadataV2Schema
  metadata := find?_related related .metadataV2

variable {left right : SectionRecord}

/-- Sources that hold the same bytes where the two records point. -/
theorem sameSection_of_field {bytes bytes' : Bytes} (serves : one.source.Serves bytes)
    (serves' : other.source.Serves bytes') (fits : bytes.length < sliceLimit)
    (fits' : bytes'.length < sliceLimit) (header : left.header = right.header)
    (inside : left.fileOffset + left.header.sectionLen ≤ bytes.length)
    (inside' : right.fileOffset + left.header.sectionLen ≤ bytes'.length)
    (same : field bytes left.fileOffset left.header.sectionLen =
      field bytes' right.fileOffset left.header.sectionLen) :
    SameSection one other left right where
  header := header
  bytes := by
    rw [Image.sectionBytes, Image.sectionBytes, ← header]
    exact ((serves.readRange fits inside).trans (congrArg _ same)).trans
      (serves'.readRange fits' inside').symm

variable (same : SameSection one other left right) (libs : Libraries)

include same

theorem decompressSection_same (cap : Nat) :
    one.decompressSection libs left cap = other.decompressSection libs right cap := by
  rw [Image.decompressSection, Image.decompressSection, same.bytes, same.header]

theorem decompressSectionPrefix_same (needed : Nat) :
    one.decompressSectionPrefix libs left needed = other.decompressSectionPrefix libs right needed := by
  rw [Image.decompressSectionPrefix, Image.decompressSectionPrefix, same.bytes, same.header]

end Sections

section Open

variable {one other : Image} (alike : Alike one other) (libs : Libraries)

include alike

theorem readMetadata_alike (arith : Arith) :
    readMetadata libs arith other = readMetadata libs arith one := by
  unfold readMetadata
  obtain ⟨gone, lacking⟩ | ⟨left, right, found, met, same⟩ := rel_cases alike.schema
  · rw [gone, lacking]
    rfl
  rw [found, met]
  obtain ⟨gone, lacking⟩ | ⟨left', right', found, met, same'⟩ := rel_cases alike.metadata
  · rw [gone, lacking]
    rfl
  · rw [found, met]
    simp only [okOr_some, ok_bind, decompressSection_same same, decompressSection_same same']

omit alike in
theorem ofTables_moved (one other : Image) (tables : Tables) :
    Filesystem.ofTables other tables =
      Filesystem.ofTables one tables >>= fun fs => .ok (moved fs other) := by
  unfold Filesystem.ofTables
  dsimp only
  cases computeOffsets tables.inodes tables.modes tables.sharedFiles.length with
  | error failure => rfl
  | ok offsets =>
    simp only [ok_bind]
    split
    all_goals
      generalize buildChunkEnds _ _ _ _ _ = ends
      cases ends <;> rfl

/-- Opening copies the image and derives everything else from the sections it reads. -/
theorem openImage_alike (build : Build) :
    Filesystem.openImage libs build other =
      Filesystem.openImage libs build one >>= fun fs => .ok (moved fs other) := by
  unfold Filesystem.openImage
  rw [readMetadata_alike alike]
  cases readMetadata libs (.machine build) one with
  | error failure => rfl
  | ok m =>
    simp only [ok_bind]
    cases readTables m with
    | error failure => rfl
    | ok tables =>
      simp only [ok_bind]
      exact ofTables_moved one other tables

end Open

section Answers

variable (fs : Filesystem) (image : Image)

theorem walkInner_moved (depth : Nat) : (moved fs image).walkInner depth = fs.walkInner depth := by
  induction depth with
  | zero => rfl
  | succ depth ih =>
    funext inode parentPath out
    rw [Filesystem.walkInner, Filesystem.walkInner, ih]
    rfl

theorem lookupFrom_moved (inode : UInt32) (components : List Bytes) :
    (moved fs image).lookupFrom inode components = fs.lookupFrom inode components := by
  induction components generalizing inode with
  | nil => rfl
  | cons component rest ih =>
    simp only [Filesystem.lookupFrom, ih]
    rfl

theorem readChunks_moved (offset wantEnd : Nat) (indices : List Nat) (written remaining : Bytes)
    (held : Option (UInt32 × Bytes)) :
    (moved fs image).readChunks offset wantEnd indices written remaining held =
      fs.readChunks offset wantEnd indices written remaining held := by
  induction indices generalizing written remaining held with
  | nil => rfl
  | cons i rest ih =>
    simp only [Filesystem.readChunks, ih]
    rfl

theorem readInto_moved (inode : UInt32) (offset : Nat) (buf : Bytes) :
    (moved fs image).readInto inode offset buf = fs.readInto inode offset buf := by
  simp only [Filesystem.readInto, readChunks_moved]
  rfl

theorem readAt_moved (inode : UInt32) (offset size : Nat) :
    (moved fs image).readAt inode offset size = fs.readAt inode offset size := by
  simp only [Filesystem.readAt, readInto_moved]
  rfl

variable {fs image} (alike : Alike fs.image image) (derived : Derived fs) (libs : Libraries)

include alike derived

theorem decodeRecord_moved (query : BlockQuery) :
    (moved fs image).decodeRecord libs query = fs.decodeRecord libs query := by
  funext retryInFull
  have records := alike.blocks
  rw [blocksOf, ← derived.blockRecords] at records
  unfold Filesystem.decodeRecord
  obtain ⟨gone, lacking⟩ | ⟨left, right, found, met, same⟩ :=
    rel_cases (getElem?_related records query.block.toNat)
  · rw [gone, show (moved fs image).blockRecords[query.block.toNat]? = none from lacking]
    rfl
  · rw [found, show (moved fs image).blockRecords[query.block.toNat]? = some right from met]
    simp only [okOr_some, ok_bind, decompressSection_same same, decompressSectionPrefix_same same]
    rfl

theorem decodeBlock_moved (budget : Nat) :
    (moved fs image).decodeBlock libs budget = fs.decodeBlock libs budget := by
  funext query cache
  rw [Filesystem.decodeBlock, decodeRecord_moved alike derived]
  rfl

/-- No call looks at the image but through the blocks. -/
theorem sameAnswers_moved : SameAnswers libs fs (moved fs image) where
  stat _ := rfl
  readLink _ := rfl
  parent _ := rfl
  contentId _ := rfl
  readDir _ := rfl
  lookupChild _ _ := rfl
  lookup path := by
    rw [Filesystem.lookup, lookupFrom_moved]
    rfl
  walk depth := by
    rw [Filesystem.walk, walkInner_moved]
    rfl
  readInto budget inode offset buf cache := by
    rw [readInto_moved, decodeBlock_moved alike derived]
  readBorrowed budget inode offset len cache := by
    rw [Filesystem.readBorrowed, decodeBlock_moved alike derived]
    rfl
  readFile inode := by
    rw [Filesystem.readFile, decodeBlock_moved alike derived]
    simp only [readAt_moved]
    rfl

end Answers

theorem image_of_open {libs : Libraries} {build : Build} {image : Image} {fs : Filesystem}
    (opened : Filesystem.openImage libs build image = .ok fs) : fs.image = image := by
  obtain ⟨tables, -, made⟩ := openImage_eq_ok.mp opened
  simp only [Filesystem.ofTables, bind_eq_ok] at made
  obtain ⟨_, _, _, _, done⟩ := made
  cases done
  rfl

section Filesystems

variable {one other : Image} (alike : Alike one other) (libs : Libraries) (build : Build)

include alike

theorem fails_alike {failure : Failure Error}
    (failed : Filesystem.openImage libs build one = .error failure) :
    Filesystem.openImage libs build other = .error failure := by
  rw [openImage_alike alike, failed]
  rfl

theorem opens_alike {fs : Filesystem} (opened : Filesystem.openImage libs build one = .ok fs) :
    ∃ fs', Filesystem.openImage libs build other = .ok fs' ∧ SameAnswers libs fs fs' := by
  have kept := image_of_open opened
  subst kept
  exact ⟨moved fs other, by rw [openImage_alike alike, opened]; rfl,
    sameAnswers_moved alike (derived_of_open opened) libs⟩

/-- Images with the same block, schema and metadata sections open alike, with the same error when
they do not open, and what opens answers every call alike. -/
theorem same_sections_same_filesystem : SameFilesystem libs build one other :=
  ⟨fun _ => fails_alike alike libs build, fun _ => opens_alike alike libs build⟩

end Filesystems

section Prefixed

theorem field_between {front mid back : Bytes} {offset width : Nat}
    (inside : offset + width ≤ mid.length) :
    field (front ++ mid ++ back) (front.length + offset) width = field mid offset width := by
  rw [field, field, List.append_assoc, List.drop_append, List.drop_eq_nil_of_le (by omega),
    List.nil_append, Nat.add_sub_cancel_left, List.drop_append_of_le_length (by omega),
    List.take_append_of_le_length (by rw [List.length_drop]; omega)]

/-- Three bytes in front and a section of an unknown type at the end. -/
def prefixedBytes : Bytes := [1, 2, 3] ++ climbingBytes ++ sectionBytes 3 77 0 [8]

def prefixedImage : Image where
  source := .ofVec prefixedBytes
  baseOffset := 3
  sections := [sectionRecord 3 0 .block 0x2027c1b241d375cb 5,
    sectionRecord 72 1 .metadataV2Schema 0x2f60492a392991ee 201,
    sectionRecord 337 2 .metadataV2 0x1783a0b7260a781d 47,
    sectionRecord 448 3 (.unknown 77) 0 1]
  sectionIndex := none

theorem sectionBytes_length (number kind : UInt8) (hash : UInt64) (payload : Bytes) :
    (sectionBytes number kind hash payload).length = 64 + payload.length := by
  simp only [sectionBytes, packedBytes, List.length_append, List.length_cons, List.length_replicate,
    List.length_map, List.length_range, magic, List.length_nil]

set_option maxRecDepth 2000 in
theorem climbing_length : climbingBytes.length = 445 := by
  rw [climbingBytes, List.length_append, List.length_append, sectionBytes_length,
    sectionBytes_length, sectionBytes_length]
  decide

theorem prefixed_same {offset : Nat} {number : UInt32} {kind : SectionType} {hash payloadLen : UInt64}
    (inside : offset + (sectionRecord offset number kind hash payloadLen).header.sectionLen ≤ 445) :
    SameSection climbingImage prefixedImage (sectionRecord offset number kind hash payloadLen)
      (sectionRecord (3 + offset) number kind hash payloadLen) := by
  have length : prefixedBytes.length = 3 + 445 + 65 := by
    simp only [prefixedBytes, List.length_append, climbing_length]
    rfl
  apply @sameSection_of_field _ _ _ _ climbingBytes prefixedBytes
  · exact ImageSource.serves_ofVec (by rw [climbing_length, sliceLimit_eq]; omega)
  · exact ImageSource.serves_ofVec (by rw [length, sliceLimit_eq]; omega)
  · rw [climbing_length, sliceLimit_eq]
    omega
  · rw [length, sliceLimit_eq]
    omega
  · rfl
  · rwa [climbing_length]
  · rw [length]
    change 3 + offset + _ ≤ _
    omega
  · exact (field_between (by rwa [climbing_length])).symm

theorem prefixed_alike : Alike climbingImage prefixedImage where
  blocks := .cons (@prefixed_same 0 _ _ _ _ (by decide)) .nil
  schema := .some (@prefixed_same 69 _ _ _ _ (by decide))
  metadata := .some (@prefixed_same 334 _ _ _ _ (by decide))

theorem same_sections_prefixed :
    ∃ fs', Filesystem.openImage libraries .checked prefixedImage = .ok fs' ∧
      SameAnswers libraries climbing fs' :=
  (same_sections_same_filesystem prefixed_alike libraries .checked).2 climbing open_climbing

end Prefixed

end Rdwarfs.Guarantees.SameSections
