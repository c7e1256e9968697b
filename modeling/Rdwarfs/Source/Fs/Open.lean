import Rdwarfs.Source.Fs.Filesystem
import Rdwarfs.Source.Metadata.Model

/-!
# Opening a filesystem

fs/read.rs:32-43, 60-61, 200-297, 994-1008, 1202-1207, `Filesystem::open`: the schema and
metadata sections are decompressed, every table is decoded, packed columns are unpacked and the
derived tables built.
-/
namespace Rdwarfs.Source.Fs

open Lib.Machine Format Metadata Codecs

def supportedFeatures : List String := ["sparsefiles"]

/-- Reject any declared feature this build does not implement. -/
def checkFeatures (features : List String) : Result Unit :=
  match features.find? fun name => ¬ supportedFeatures.contains name with
  | some name => fail (.unsupportedFeature name)
  | none => .ok ()

def capSchemaBytes : Nat := 1024 * 1024

def capMetadataBytes : Nat := 64 * 1024 * 1024

def missingSection (kind : SectionType) : Error :=
  .decode "fs" s!"required section type {kind.debug} missing"

/-- Category name of every block, empty when the image records no categorisation. -/
def resolveBlockCategories (m : Metadata.Metadata) : Result (List String) := do
  let names ← m.categoryNames
  if names.isEmpty then return []
  else
    let categories ← m.blockCategories
    collect (fun index : UInt32 => okOr names[index.toNat]?
      (corrupt s!"category index {index} out of range")) categories

/-- The tables of a metadata blob, as stored. -/
structure Tables where
  features : List String
  blockSize : UInt32
  options : FsOptions
  timestampBase : UInt64
  modes : List UInt32
  uids : List UInt32
  gids : List UInt32
  inodes : List InodeData
  directories : List Directory
  dirEntries : List DirEntry
  chunks : List Chunk
  chunkTable : List UInt32
  symlinkTable : List UInt32
  sharedFiles : List UInt32
  largeHoleSize : List UInt64
  holeBlockIndex : Option UInt32
  names : StringTable
  symlinks : StringTable
  devices : List UInt64
  blockCategoryNames : List String
  preferredPathSeparator : Option UInt32
  totalFsSize : UInt64
  totalAllocatedFsSize : Option UInt64
  deriving DecidableEq, Repr

/-- The schema and metadata sections, decompressed and parsed. -/
def readMetadata (libs : Libraries) (arith : Arith) (image : Image) :
    Result Metadata.Metadata := do
  let schemaSection ← okOr (image.findSection .metadataV2Schema)
    (missingSection .metadataV2Schema)
  let metadataSection ← okOr (image.findSection .metadataV2) (missingSection .metadataV2)
  let schemaBytes ← image.decompressSection libs schemaSection capSchemaBytes
  let metadataBytes ← image.decompressSection libs metadataSection capMetadataBytes
  let schema ← Schema.parse schemaBytes
  Metadata.parse arith schema metadataBytes

/-- Decode every table a filesystem keeps. -/
def readTables (m : Metadata.Metadata) : Result Tables := do
  let features ← m.features
  checkFeatures features
  let blockSize ← m.blockSize
  let options ← m.fsOptions
  let timestampBase ← m.timestampBase
  let modes ← m.modes
  let uids ← m.uids
  let gids ← m.gids
  let inodes ← m.inodes
  let directories ← m.directories
  let dirEntries ← m.dirEntries
  let chunks ← m.chunks
  let chunkTable ← m.chunkTableRaw
  let symlinkTable ← m.symlinkTable
  let sharedFiles ← m.sharedFilesTable
  let largeHoleSize ← m.largeHoleSize
  let holeBlockIndex ← m.holeBlockIndex
  let names ← m.names
  let symlinks ← m.symlinks
  let devices ← m.devices
  let blockCategoryNames ← resolveBlockCategories m
  let preferredPathSeparator ← m.preferredPathSeparator
  let totalFsSize ← m.totalFsSize
  let totalAllocatedFsSize ← m.totalAllocatedFsSize
  return { features, blockSize, options, timestampBase, modes, uids, gids, inodes, directories,
           dirEntries, chunks, chunkTable, symlinkTable, sharedFiles, largeHoleSize,
           holeBlockIndex, names, symlinks, devices, blockCategoryNames,
           preferredPathSeparator, totalFsSize, totalAllocatedFsSize }

namespace Filesystem

/-- Unpack the packed columns and build the derived tables. -/
def ofTables (image : Image) (tables : Tables) : Result Filesystem := do
  let chunkTable :=
    if tables.options.packedChunkTable then inclusivePrefixSumU32 tables.chunkTable
    else tables.chunkTable
  let directories :=
    if tables.options.packedDirectories then
      rebuildDirectoryLinks (unpackDirectoryFirstEntries tables.directories) tables.dirEntries
    else tables.directories
  let offsets ← computeOffsets tables.inodes tables.modes tables.sharedFiles.length
  let chunkEnd ← buildChunkEnds tables.chunks chunkTable tables.holeBlockIndex
    tables.blockSize tables.largeHoleSize
  return {
    image
    blockRecords := image.sections.filter (·.header.sectionType == .block)
    blockSize := tables.blockSize
    options := tables.options
    timestampBase := tables.timestampBase
    modes := tables.modes
    uids := tables.uids
    gids := tables.gids
    inodes := tables.inodes
    directories
    dirEntries := tables.dirEntries
    chunks := tables.chunks
    chunkEnd
    chunkTable
    symlinkTable := tables.symlinkTable
    sharedFiles := tables.sharedFiles
    largeHoleSize := tables.largeHoleSize
    holeBlockIndex := tables.holeBlockIndex
    names := tables.names
    symlinks := tables.symlinks
    devices := tables.devices
    blockCategoryNames := tables.blockCategoryNames
    features := tables.features
    preferredPathSeparator := tables.preferredPathSeparator
    totalFsSize := tables.totalFsSize
    totalAllocatedFsSize := tables.totalAllocatedFsSize
    offsets }

/-- `Filesystem::open`: decode the metadata of an image. -/
def openImage (libs : Libraries) (build : Build) (image : Image) : Result Filesystem := do
  let m ← readMetadata libs (.machine build) image
  let tables ← readTables m
  ofTables image tables

end Filesystem

end Rdwarfs.Source.Fs
