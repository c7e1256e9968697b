import Rdwarfs.Source.Format.Image
import Rdwarfs.Source.Fs.Tables

/-!
# The filesystem view

fs/read.rs:124-186, 353-361, 384-392, 476-485, 728-761, 778-806, 824-845, 864-916, 947-967: the
state `Filesystem::open` builds and the accessors that resolve an inode number through it. Inode
numbers and table values are hostile until checked. `block_category`, which nothing calls, is not
modelled.
-/
namespace Rdwarfs.Source.Fs

open Lib.Machine Format Metadata

structure Filesystem where
  image : Image
  blockRecords : List SectionRecord
  blockSize : UInt32
  options : FsOptions
  timestampBase : UInt64
  modes : List UInt32
  uids : List UInt32
  gids : List UInt32
  inodes : List InodeData
  directories : List Directory
  dirEntries : List DirEntry
  chunks : List Chunk
  /-- Logical end of each chunk within its file, parallel to `chunks`. -/
  chunkEnd : List Nat
  chunkTable : List UInt32
  symlinkTable : List UInt32
  sharedFiles : List UInt32
  largeHoleSize : List UInt64
  holeBlockIndex : Option UInt32
  names : StringTable
  symlinks : StringTable
  devices : List UInt64
  blockCategoryNames : List String
  features : List String
  preferredPathSeparator : Option UInt32
  totalFsSize : UInt64
  totalAllocatedFsSize : Option UInt64
  offsets : InodeOffsets

/-- One entry of a directory listing. -/
structure Listing where
  inode : UInt32
  kind : InodeKind
  name : Bytes
  deriving DecidableEq, Repr

namespace Filesystem

variable (fs : Filesystem)

def inodeCount : Nat := fs.offsets.total

/-- Distinct category names of the blocks, in the order of the first of each. -/
def categoryNames : List String :=
  fs.blockCategoryNames.foldl
    (fun seen name => if seen.contains name then seen else seen ++ [name]) []

section Inodes

def inodeIndex (inode : UInt32) : Result Nat := do
  refuseIf (inode.toNat ≥ fs.inodes.length)
    (corrupt s!"inode {inode} out of {fs.inodes.length} entries")
  return inode.toNat

def modeAt (modeIndex : UInt32) : Result UInt32 :=
  okOr fs.modes[modeIndex.toNat]? (corrupt s!"mode index {modeIndex} out of range")

def modeOf (inode : UInt32) : Result UInt32 := do
  let i ← fs.inodeIndex inode
  let info ← index fs.inodes i
  fs.modeAt info.modeIndex

def kind (inode : UInt32) : Result InodeKind := do
  let mode ← fs.modeOf inode
  return modeKind mode

end Inodes

section Chunks

def chunkTableSlot (inode : UInt32) : Result Nat :=
  Fs.chunkTableSlot fs.offsets fs.sharedFiles inode

/-- The chunk indices of a regular file, as start and end. -/
def chunkRange (inode : UInt32) : Result (Nat × Nat) := do
  let tableIndex ← fs.chunkTableSlot inode
  let next ← addWord tableIndex 1
  refuseIf (next ≥ fs.chunkTable.length) (corrupt s!"chunk_table index {tableIndex} out of range")
  let start ← index fs.chunkTable tableIndex
  let stop ← index fs.chunkTable next
  refuseIf (stop.toNat < start.toNat ∨ stop.toNat > fs.chunks.length)
    (corrupt s!"chunk range [{start}, {stop}) out of {fs.chunks.length} chunks")
  return (start.toNat, stop.toNat)

def isHoleChunk (chunk : Chunk) : Bool := fs.holeBlockIndex == some chunk.block

/-- Logical length a chunk contributes to its file. -/
def chunkLogicalLen (chunk : Chunk) : Result Nat :=
  Fs.chunkLogicalLen fs.holeBlockIndex fs.blockSize fs.largeHoleSize chunk

/-- Total file size, 0 for anything that is not a regular file. -/
def fileSize (inode : UInt32) : Result Nat := do
  let kind ← fs.kind inode
  if kind ≠ .regular then .ok 0
  else
    let (start, stop) ← fs.chunkRange inode
    -- `range.end.checked_sub(1)` names the last chunk when there is one
    if start < stop then index fs.chunkEnd (stop - 1) else .ok 0

end Chunks

section Directories

def entryName (index : UInt32) : Result Bytes :=
  okOr (fs.names.get index.toNat) (corrupt s!"name index {index} out of range")

/-- The entries of a directory in `dirEntries`, as start and end. -/
def dirEntryRange (dirInode : UInt32) : Result (Nat × Nat) := do
  let i := dirInode.toNat
  refuseIf (i ≥ fs.directories.length)
    (corrupt s!"directory inode {dirInode} out of {fs.directories.length} entries")
  let dir ← index fs.directories i
  let start := dir.firstEntry.toNat
  let stop := match fs.directories[i + 1]? with
    | some next => next.firstEntry.toNat
    | none => fs.dirEntries.length
  refuseIf (stop > fs.dirEntries.length ∨ start > stop)
    (corrupt s!"directory entry range [{start}, {stop}) out of {fs.dirEntries.length} entries")
  return (start, stop)

/-- The body of the listing loop. -/
def listEntry (i : Nat) : Result Listing := do
  let entry ← index fs.dirEntries i
  let name ← fs.entryName entry.nameIndex
  let kind ← fs.kind entry.inodeNum
  return { inode := entry.inodeNum, kind, name }

/-- List the entries of a directory inode. -/
def readDir (inode : UInt32) : Result (List Listing) := do
  let kind ← fs.kind inode
  refuseIf (kind ≠ .directory) (corrupt s!"inode {inode} is not a directory")
  let (start, stop) ← fs.dirEntryRange inode
  collect fs.listEntry (List.range' start (stop - start))

/-- The loop of `for_each_entry`; `visit` says whether to go on. -/
def visitEntries {σ : Type} (visit : σ → UInt32 → InodeKind → Bytes → σ × Bool) :
    List Nat → σ → Result σ
  | [], state => .ok state
  | i :: rest, state => do
    let entry ← fs.listEntry i
    let (state, more) := visit state entry.inode entry.kind entry.name
    if more then visitEntries visit rest state else .ok state

/-- Visit a directory's entries in order, without building a listing. -/
def forEachEntry {σ : Type} (inode : UInt32)
    (visit : σ → UInt32 → InodeKind → Bytes → σ × Bool) (state : σ) : Result σ := do
  let kind ← fs.kind inode
  refuseIf (kind ≠ .directory) (corrupt s!"inode {inode} is not a directory")
  let (start, stop) ← fs.dirEntryRange inode
  fs.visitEntries visit (List.range' start (stop - start)) state

/-- Parent of a directory inode, read from the entry that names it. -/
def parent (inode : UInt32) : Result UInt32 := do
  let kind ← fs.kind inode
  refuseIf (kind ≠ .directory) (corrupt s!"inode {inode} is not a directory")
  let dir ← okOr fs.directories[inode.toNat]?
    (corrupt s!"directory inode {inode} out of range")
  let entry ← okOr fs.dirEntries[dir.parentEntry.toNat]?
    (corrupt s!"parent entry {dir.parentEntry} out of range")
  return entry.inodeNum

end Directories

end Filesystem

end Rdwarfs.Source.Fs
