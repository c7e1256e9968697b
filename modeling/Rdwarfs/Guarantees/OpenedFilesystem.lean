import Rdwarfs.Guarantees.PartialDecode
import Rdwarfs.Source.Fs.Open

/-!
# What an opened filesystem is known to satisfy

`Filesystem::open` derives three tables from the metadata. Every later guarantee about a
read or a walk starts from these facts and from nothing else about how the image was made.
Three images are written out here byte by byte: two to show that hostile tables do open, and a
sound one with a compressed block.
-/
namespace Rdwarfs.Guarantees.OpenedFilesystem

open Lib.Machine Source Source.Format Source.Metadata Source.Fs Source.Codecs

/-- The derived tables are those of the stored ones. -/
structure Derived (fs : Filesystem) : Prop where
  chunkEnd : buildChunkEnds fs.chunks fs.chunkTable fs.holeBlockIndex fs.blockSize
    fs.largeHoleSize = .ok fs.chunkEnd
  offsets : computeOffsets fs.inodes fs.modes fs.sharedFiles.length = .ok fs.offsets
  blockRecords : fs.blockRecords = fs.image.sections.filter (·.header.sectionType == .block)

theorem derived_of_ofTables {image : Image} {tables : Tables} {fs : Filesystem}
    (made : Filesystem.ofTables image tables = .ok fs) : Derived fs := by
  simp only [Filesystem.ofTables, bind_eq_ok] at made
  obtain ⟨offsets, computed, chunkEnd, built, done⟩ := made
  cases done
  exact ⟨built, computed, rfl⟩

theorem openImage_eq_ok {libs : Libraries} {build : Build} {image : Image} {fs : Filesystem} :
    Filesystem.openImage libs build image = .ok fs ↔
      ∃ tables, (readMetadata libs (.machine build) image >>= readTables) = .ok tables ∧
        Filesystem.ofTables image tables = .ok fs := by
  simp only [Filesystem.openImage, bind_eq_ok]
  constructor
  · rintro ⟨m, parsed, tables, read, made⟩
    exact ⟨tables, ⟨m, parsed, read⟩, made⟩
  · rintro ⟨tables, ⟨m, parsed, read⟩, made⟩
    exact ⟨m, parsed, tables, read, made⟩

theorem derived_of_open {libs : Libraries} {build : Build} {image : Image} {fs : Filesystem}
    (opened : Filesystem.openImage libs build image = .ok fs) : Derived fs := by
  obtain ⟨_, _, made⟩ := openImage_eq_ok.mp opened
  exact derived_of_ofTables made

section Images

/-- A section; `hash` covers everything after itself. -/
def packedBytes (number kind codec : UInt8) (hash : UInt64) (payload : Bytes) : Bytes :=
  magic ++ [2, 5] ++ List.replicate 32 0 ++
    (List.range 8).map (fun i => UInt8.ofNat (hash.toNat / 256 ^ i)) ++
    [number, 0, 0, 0, kind, 0, codec, 0] ++
    UInt8.ofNat payload.length :: List.replicate 7 0 ++ payload

/-- An uncompressed section. -/
def sectionBytes (number kind : UInt8) (hash : UInt64) (payload : Bytes) : Bytes :=
  packedBytes number kind 0 hash payload

/-- The record `walk_sections` makes of it. -/
def sectionRecord (fileOffset : Nat) (number : UInt32) (kind : SectionType) (hash payloadLen : UInt64) :
    SectionRecord where
  fileOffset
  header :=
    { major := 2, minor := 5, sha512_256 := List.replicate 32 0, xxh3_64 := hash, number
      sectionType := kind, compression := .none, payloadLen }

/-- Byte-aligned tables: every count and every distance takes one byte. -/
def schemaBytes : Bytes := [
  43, 11, 76, 0, 21, 2, 20, 16, 0, 2, 21, 4, 20, 32, 0, 4, 21, 4, 43, 3, 76, 2, 0, 4, 36, 2, 0,
  6, 0, 0, 6, 21, 4, 43, 3, 76, 2, 0, 4, 36, 2, 0, 6, 20, 2, 0, 0, 8, 21, 6, 43, 3, 76, 2, 0, 4,
  36, 2, 0, 6, 36, 4, 0, 0, 10, 21, 4, 43, 3, 76, 2, 0, 4, 36, 2, 0, 6, 20, 8, 0, 0, 12, 21, 4,
  43, 2, 76, 2, 0, 4, 36, 2, 0, 0, 14, 21, 4, 43, 3, 76, 2, 0, 4, 36, 2, 0, 6, 20, 12, 0, 0, 16,
  21, 2, 43, 1, 76, 4, 0, 0, 18, 21, 4, 43, 3, 76, 2, 0, 4, 36, 2, 0, 6, 20, 16, 0, 0, 20, 21,
  34, 43, 10, 76, 2, 20, 10, 0, 4, 20, 10, 20, 4, 0, 6, 20, 18, 20, 8, 0, 8, 20, 4, 20, 12, 0,
  18, 20, 6, 20, 16, 0, 20, 20, 14, 20, 20, 0, 24, 36, 24, 0, 30, 36, 26, 0, 32, 36, 28, 0, 38,
  20, 14, 20, 30, 0, 0, 20, 20, 21, 2, 0]

/-- A root and a file of two chunks, named `../a`. -/
def climbingMetadata : Bytes := [
  17, 2, 21, 2, 25, 2, 25, 2, 25, 2, 27, 1, 0, 16, 5, 28, 2, 0, 0, 2, 0, 2, 3, 0, 1, 0, 0, 2, 0,
  0, 1, 0, 2, 237, 65, 164, 129, 2, 4, 46, 46, 47, 97, 0, 0, 0, 1]

/-- A root whose only entry `a` names the root again. -/
def loopMetadata : Bytes := [
  0, 0, 15, 2, 19, 1, 0, 0, 16, 1, 16, 1, 0, 16, 0, 14, 2, 0, 1, 0, 0, 2, 0, 0, 237, 65, 2, 1,
  97, 0, 0, 0, 0]

def helloBlock : Bytes := [104, 101, 108, 108, 111]

def climbingBytes : Bytes :=
  sectionBytes 0 0 0x2027c1b241d375cb helloBlock ++ sectionBytes 1 7 0x2f60492a392991ee schemaBytes ++
    sectionBytes 2 8 0x1783a0b7260a781d climbingMetadata

def loopBytes : Bytes :=
  sectionBytes 0 7 0x95c958c01883021d schemaBytes ++ sectionBytes 1 8 0xee00f2de2954fe15 loopMetadata

/-- Hashes of the sections above by the number and length of the bytes covered; no section
is compressed. -/
def libraries : Libraries where
  xxh3 := fun covered =>
    match covered.length, covered.getD 0 0 with
    | 21, 0 => 0x2027c1b241d375cb
    | 217, 1 => 0x2f60492a392991ee
    | 63, 2 => 0x1783a0b7260a781d
    | 217, 0 => 0x95c958c01883021d
    | 49, 1 => 0xee00f2de2954fe15
    | _, _ => 0
  decode := fun _ _ _ => fail .io
  decodePrefix := fun _ _ _ => .ok none

def climbingImage : Image where
  source := .ofVec climbingBytes
  baseOffset := 0
  sections := [sectionRecord 0 0 .block 0x2027c1b241d375cb 5,
    sectionRecord 69 1 .metadataV2Schema 0x2f60492a392991ee 201,
    sectionRecord 334 2 .metadataV2 0x1783a0b7260a781d 47]
  sectionIndex := none

def loopImage : Image where
  source := .ofVec loopBytes
  baseOffset := 0
  sections := [sectionRecord 0 0 .metadataV2Schema 0x95c958c01883021d 201,
    sectionRecord 265 1 .metadataV2 0xee00f2de2954fe15 33]
  sectionIndex := none

theorem build_of_parts {source : ImageSource} {image : Image} {build : Build}
    (same : image.source = source)
    (detected : detectBaseOffsetIn build source = .ok image.baseOffset)
    (walked : walkSections build source image.baseOffset = .ok image.sections)
    (indexed : SectionIndex.fromSource build source image.baseOffset = .ok image.sectionIndex) :
    Image.build build source = .ok image := by
  subst same
  simp only [Image.build, detected, walked, indexed, ok_bind, pure_eq_ok]

theorem build_climbing : Image.build .checked (.ofVec climbingBytes) = .ok climbingImage :=
  build_of_parts rfl (by decide +kernel) (by decide +kernel) (by decide +kernel)

theorem build_loop : Image.build .checked (.ofVec loopBytes) = .ok loopImage :=
  build_of_parts rfl (by decide +kernel) (by decide +kernel) (by decide +kernel)

/-- A root directory whose one entry, called `name`, leads to inode `child`. -/
def rootTables (name : Bytes) (child : UInt32) (modes : List UInt32) : Tables where
  features := []
  blockSize := 16
  options := {}
  timestampBase := 0
  modes
  uids := []
  gids := []
  inodes := (List.range modes.length).map fun i =>
    { modeIndex := UInt32.ofNat i, ownerIndex := 0, groupIndex := 0, atimeOffset := 0
      mtimeOffset := 0, ctimeOffset := 0, btimeOffset := 0, atimeSubsec := 0, mtimeSubsec := 0
      ctimeSubsec := 0, btimeSubsec := 0, nlinkMinusOne := 0 }
  directories := [⟨0, 1, 0⟩, ⟨0, 2, 0⟩]
  dirEntries := [⟨0, 0⟩, ⟨0, child⟩]
  chunks := []
  chunkTable := []
  symlinkTable := []
  sharedFiles := []
  largeHoleSize := []
  holeBlockIndex := none
  names := { data := name, offsets := [0, UInt32.ofNat name.length] }
  symlinks := .empty
  devices := []
  blockCategoryNames := []
  preferredPathSeparator := none
  totalFsSize := 0
  totalAllocatedFsSize := none

def climbingTables : Tables :=
  { rootTables [46, 46, 47, 97] 1 [0o040755, 0o100644] with
    chunks := [⟨0, 0, 2⟩, ⟨0, 2, 3⟩], chunkTable := [0, 2], totalFsSize := 5 }

def loopTables : Tables := rootTables [97] 0 [0o040755]

theorem read_climbing :
    (readMetadata libraries (.machine .checked) climbingImage >>= readTables) =
      .ok climbingTables := by decide +kernel

theorem read_loop :
    (readMetadata libraries (.machine .checked) loopImage >>= readTables) = .ok loopTables := by
  decide +kernel

/-- The fields `Filesystem::open` copies, next to the two tables it computes. -/
def filesystem (image : Image) (tables : Tables) (chunkEnd : List Nat) (offsets : InodeOffsets) :
    Filesystem where
  image
  blockRecords := image.sections.filter (·.header.sectionType == .block)
  blockSize := tables.blockSize
  options := tables.options
  timestampBase := tables.timestampBase
  modes := tables.modes
  uids := tables.uids
  gids := tables.gids
  inodes := tables.inodes
  directories := tables.directories
  dirEntries := tables.dirEntries
  chunks := tables.chunks
  chunkEnd
  chunkTable := tables.chunkTable
  symlinkTable := tables.symlinkTable
  sharedFiles := tables.sharedFiles
  largeHoleSize := tables.largeHoleSize
  holeBlockIndex := tables.holeBlockIndex
  names := tables.names
  symlinks := tables.symlinks
  devices := tables.devices
  blockCategoryNames := tables.blockCategoryNames
  features := tables.features
  preferredPathSeparator := tables.preferredPathSeparator
  totalFsSize := tables.totalFsSize
  totalAllocatedFsSize := tables.totalAllocatedFsSize
  offsets

theorem ofTables_unpacked {image : Image} {tables : Tables} {chunkEnd : List Nat}
    {offsets : InodeOffsets} (unpackedChunks : tables.options.packedChunkTable = false)
    (unpackedDirectories : tables.options.packedDirectories = false)
    (computed : computeOffsets tables.inodes tables.modes tables.sharedFiles.length = .ok offsets)
    (built : buildChunkEnds tables.chunks tables.chunkTable tables.holeBlockIndex
      tables.blockSize tables.largeHoleSize = .ok chunkEnd) :
    Filesystem.ofTables image tables = .ok (filesystem image tables chunkEnd offsets) := by
  simp [Filesystem.ofTables, filesystem, unpackedChunks, unpackedDirectories, computed, built]

def climbing : Filesystem :=
  filesystem climbingImage climbingTables [2, 5] ⟨0, 2, 1, 2, 2, 2, 2⟩

def loop : Filesystem := filesystem loopImage loopTables [] ⟨0, 1, 1, 1, 1, 1, 1⟩

theorem open_climbing : Filesystem.openImage libraries .checked climbingImage = .ok climbing :=
  openImage_eq_ok.mpr ⟨climbingTables, read_climbing,
    ofTables_unpacked rfl rfl (by decide) (by decide)⟩

theorem open_loop : Filesystem.openImage libraries .checked loopImage = .ok loop :=
  openImage_eq_ok.mpr ⟨loopTables, read_loop,
    ofTables_unpacked rfl rfl (by decide) (by decide)⟩

/-- `schemaBytes` with tables of owners and groups, one number each. -/
def namedSchema : Bytes := [
  43, 11, 76, 0, 21, 2, 20, 16, 0, 2, 21, 4, 20, 32, 0, 4, 21, 4, 43, 3, 76, 2, 0, 4, 36, 2, 0,
  6, 0, 0, 6, 21, 4, 43, 3, 76, 2, 0, 4, 36, 2, 0, 6, 20, 2, 0, 0, 8, 21, 6, 43, 3, 76, 2, 0, 4,
  36, 2, 0, 6, 36, 4, 0, 0, 10, 21, 4, 43, 3, 76, 2, 0, 4, 36, 2, 0, 6, 20, 8, 0, 0, 12, 21, 4,
  43, 2, 76, 2, 0, 4, 36, 2, 0, 0, 14, 21, 4, 43, 3, 76, 2, 0, 4, 36, 2, 0, 6, 20, 12, 0, 0, 16,
  21, 2, 43, 1, 76, 4, 0, 0, 18, 21, 4, 43, 3, 76, 2, 0, 4, 36, 2, 0, 6, 20, 16, 0, 0, 20, 21,
  38, 43, 12, 76, 2, 20, 10, 0, 4, 20, 10, 20, 4, 0, 6, 20, 18, 20, 8, 0, 8, 20, 4, 20, 12, 0,
  18, 20, 6, 20, 16, 0, 20, 20, 14, 20, 20, 0, 24, 36, 24, 0, 30, 36, 26, 0, 32, 36, 28, 0, 38,
  20, 14, 20, 30, 0, 14, 20, 4, 20, 34, 0, 16, 20, 4, 20, 34, 0, 0, 20, 20, 21, 2, 0]

/-- A root and a file of two chunks, named `abcd`, owner and group zero. -/
def namedMetadata : Bytes := [
  19, 2, 23, 2, 27, 2, 27, 2, 27, 2, 29, 1, 0, 16, 5, 30, 2, 2, 1, 0, 0, 2, 0, 2, 3, 0, 1, 0, 0, 2,
  0, 0, 1, 0, 2, 237, 65, 164, 129, 2, 4, 97, 98, 99, 100, 0, 0, 0, 1]

def namedBytes : Bytes :=
  packedBytes 0 0 2 0xec1285e06c231d81 PartialDecode.helloFrame ++
    sectionBytes 1 7 0x96ae3adfd9629c7a namedSchema ++ sectionBytes 2 8 0xee355bb380c2be14 namedMetadata

/-- The codecs of a build and the hashes of the sections above, by the length of the bytes
covered. -/
def namedLibraries : Libraries :=
  PartialDecode.helloPackages.libraries DecodedCap.nativeBuild
    { libraries with
      xxh3 := fun covered =>
        match covered.length with
        | 30 => 0xec1285e06c231d81
        | 229 => 0x96ae3adfd9629c7a
        | 65 => 0xee355bb380c2be14
        | _ => 0 }

/-- The record of the block, a zstd frame. -/
def namedBlock : SectionRecord where
  fileOffset := 0
  header :=
    { major := 2, minor := 5, sha512_256 := List.replicate 32 0, xxh3_64 := 0xec1285e06c231d81
      number := 0, sectionType := .block, compression := .zstd, payloadLen := 14 }

def namedImage : Image where
  source := .ofVec namedBytes
  baseOffset := 0
  sections := [namedBlock, sectionRecord 78 1 .metadataV2Schema 0x96ae3adfd9629c7a 213,
    sectionRecord 355 2 .metadataV2 0xee355bb380c2be14 49]
  sectionIndex := none

theorem build_named : Image.build .checked (.ofVec namedBytes) = .ok namedImage :=
  build_of_parts rfl (by decide +kernel) (by decide +kernel) (by decide +kernel)

def namedTables : Tables :=
  { climbingTables with
    names := { data := [97, 98, 99, 100], offsets := [0, 4] }, uids := [0], gids := [0] }

def named : Filesystem := filesystem namedImage namedTables [2, 5] ⟨0, 2, 1, 2, 2, 2, 2⟩

theorem open_named : Filesystem.openImage namedLibraries .checked namedImage = .ok named :=
  openImage_eq_ok.mpr ⟨namedTables, by decide +kernel,
    ofTables_unpacked rfl rfl (by decide) (by decide)⟩

end Images

end Rdwarfs.Guarantees.OpenedFilesystem
