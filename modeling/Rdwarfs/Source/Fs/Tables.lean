import Rdwarfs.Source.Fs.Inode
import Rdwarfs.Source.Metadata.Tables
import Mathlib.Logic.Function.Basic

/-!
# Tables derived while opening

fs/read.rs:65-80, 974-990, 1023-1200, the functions between the decoded metadata and a
filesystem: prefix sums of packed columns, the links of packed directories, cumulative chunk ends
and the boundaries between inode classes.
-/
namespace Rdwarfs.Source.Fs

open Lib.Machine Metadata

def corrupt (message : String) : Error := .decode "fs" message

/-- `u32::MAX` -/
def u32Max : Nat := 4294967295

section Packed

def unpackFirstEntriesFrom (acc : UInt32) : List Directory → List Directory
  | [] => []
  | dir :: rest =>
    { dir with firstEntry := acc + dir.firstEntry } ::
      unpackFirstEntriesFrom (acc + dir.firstEntry) rest

def unpackDirectoryFirstEntries (dirs : List Directory) : List Directory :=
  unpackFirstEntriesFrom 0 dirs

/-- `entry_range(dirs, d)`, as its start and length; `none` when it leaves the table. -/
def entryRange (dirs : List Directory) (entryCount d : Nat) : Option (Nat × Nat) := do
  let dir ← dirs[d]?
  let next ← dirs[d + 1]?
  if dir.firstEntry.toNat ≤ next.firstEntry.toNat ∧ next.firstEntry.toNat ≤ entryCount then
    some (dir.firstEntry.toNat, next.firstEntry.toNat - dir.firstEntry.toNat)
  else none

/-- The entry indices of directory `d`, in order; a range outside the table is skipped. -/
def entriesOf (dirs : List Directory) (entryCount d : Nat) : List Nat :=
  match entryRange dirs entryCount d with
  | some (start, count) => List.range' start count
  | none => []

/-- The inode named by entry `e`; `e` comes from a range inside the table. -/
def childOf (dirEntries : List DirEntry) (e : Nat) : Nat :=
  match dirEntries[e]? with
  | some entry => entry.inodeNum.toNat
  | none => 0

/-- One step of the first pass of `rebuild_directory_links`. -/
def noteSelfEntry (dirEntries : List DirEntry) (dirCount : Nat) (selfEntry : List UInt32)
    (e : Nat) : List UInt32 :=
  let child := childOf dirEntries e
  if child < dirCount ∧ child ≠ 0 ∧ selfEntry[child]? = some 0 then
    selfEntry.set child (UInt32.ofNat e)
  else selfEntry

/-- One step of the second pass: entry `e` of a directory whose own entry is `parentSelf`. -/
def noteParentEntry (dirEntries : List DirEntry) (dirCount : Nat) (parentSelf : UInt32)
    (dirs : List Directory) (e : Nat) : List Directory :=
  let child := childOf dirEntries e
  if child < dirCount ∧ child ≠ 0 then
    dirs.modify child fun dir => { dir with parentEntry := parentSelf }
  else dirs

/-- Rebuild the `parent_entry` and `self_entry` columns of a packed directory table. The
ranges stay those of the table as it came: neither pass writes `first_entry`. -/
def rebuildDirectoryLinks (dirs : List Directory) (dirEntries : List DirEntry) :
    List Directory :=
  match dirs.length with
  | 0 => dirs
  | dirCount + 1 =>
    let ranges := fun d => entriesOf dirs dirEntries.length d
    let selfEntry := (List.range dirCount).foldl
      (fun selfEntry d => (ranges d).foldl (noteSelfEntry dirEntries dirCount) selfEntry)
      (List.replicate dirCount 0)
    let linked := (selfEntry.zipIdx).foldl
      (fun linked (parentSelf, d) =>
        (ranges d).foldl (noteParentEntry dirEntries dirCount parentSelf) linked)
      dirs
    (selfEntry.zipIdx).foldl
      (fun linked (entry, d) => linked.modify d fun dir => { dir with selfEntry := entry })
      linked

end Packed

section Chunks

/-- `LARGE_HOLE_SENTINEL` -/
def largeHoleSentinel : UInt32 := 4294967295

/-- Decoded length of a hole chunk. -/
def holeLength (chunk : Chunk) (blockSize : UInt32) (largeHoleSize : List UInt64) : Result Nat :=
  if chunk.offset = largeHoleSentinel then
    let idx := chunk.size.toNat
    okOr (largeHoleSize[idx]?.map UInt64.toNat)
      (corrupt s!"large_hole_size index {idx} out of range")
  else
    okOr (((Arith.machine .checked).checkedMul chunk.size.toNat blockSize.toNat).bind fun byBlocks =>
        checkedAddWord byBlocks chunk.offset.toNat)
      (corrupt "hole length overflow")

/-- Logical length a chunk contributes to its file. -/
def chunkLogicalLen (holeBlockIndex : Option UInt32) (blockSize : UInt32)
    (largeHoleSize : List UInt64) (chunk : Chunk) : Result Nat :=
  if holeBlockIndex = some chunk.block then holeLength chunk blockSize largeHoleSize
  else .ok chunk.size.toNat

/-- The inner loop of `build_chunk_ends`: cumulative ends of one file's chunks. -/
def cumulativeEnds (length : Chunk → Result Nat) (cursor : Nat) : List Chunk → Result (List Nat)
  | [] => .ok []
  | chunk :: rest => do
    let len ← length chunk
    let stop ← okOr (checkedAddWord cursor len) (corrupt "file size overflows u64")
    let ends ← cumulativeEnds length stop rest
    return stop :: ends

/-- Overwrite `ends` from `start` on, as the loop over one slot does. -/
def overwrite (ends : List Nat) (start : Nat) (values : List Nat) : List Nat :=
  ends.take start ++ values ++ ends.drop (start + values.length)

/-- The loop over adjacent pairs of `chunk_table`. -/
def fillChunkEnds (chunks : List Chunk) (length : Chunk → Result Nat) :
    List UInt32 → List Nat → Result (List Nat)
  | first :: second :: rest, ends => do
    let start := first.toNat
    let stop := second.toNat
    refuseIf (stop < start ∨ stop > chunks.length)
      (corrupt s!"chunk range [{start}, {stop}) out of {chunks.length} chunks")
    let values ← cumulativeEnds length 0 ((chunks.drop start).take (stop - start))
    fillChunkEnds chunks length (second :: rest) (overwrite ends start values)
  | _, ends => .ok ends

/-- Cumulative logical end offset of every chunk within its own file. -/
def buildChunkEnds (chunks : List Chunk) (chunkTable : List UInt32)
    (holeBlockIndex : Option UInt32) (blockSize : UInt32) (largeHoleSize : List UInt64) :
    Result (List Nat) :=
  fillChunkEnds chunks (chunkLogicalLen holeBlockIndex blockSize largeHoleSize) chunkTable
    (List.replicate chunks.length 0)

end Chunks

section Offsets

/-- File-type partitions over the inode table; every field is a 32-bit word. -/
structure InodeOffsets where
  dirOffset : Nat
  symlinkOffset : Nat
  fileOffset : Nat
  sharedFileOffset : Nat
  deviceOffset : Nat
  specialOffset : Nat
  total : Nat
  deriving DecidableEq, Repr

/-- The loop of `compute_offsets`: the first index of each class, `u32::MAX` until it is met. -/
def scanInodes (modes : List UInt32) :
    List InodeData → Nat → (Partition → Nat) → Result (Partition → Nat)
  | [], _, first => .ok first
  | inode :: rest, i, first => do
    let mode ← okOr modes[inode.modeIndex.toNat]?
      (corrupt s!"mode index {inode.modeIndex} out of range")
    let idx := i % 2 ^ 32
    match (modeKind mode).partition with
    | some part =>
      if first part = u32Max then scanInodes modes rest (i + 1) (Function.update first part idx)
      else scanInodes modes rest (i + 1) first
    | none => scanInodes modes rest (i + 1) first

def computeOffsets (inodes : List InodeData) (modes : List UInt32) (sharedFilesCount : Nat) :
    Result InodeOffsets := do
  let first ← scanInodes modes inodes 0 fun _ => u32Max
  let total := inodes.length % 2 ^ 32
  let defaultToTotal := fun v => if v = u32Max then total else v
  let fileOffset := min (defaultToTotal (first .file)) total
  let deviceOffset := min (defaultToTotal (first .device)) total
  let specialOffset := min (defaultToTotal (first .special)) total
  let endOfFiles := min deviceOffset specialOffset
  refuseIf (sharedFilesCount > u32Max)
    (corrupt s!"shared_files_count {sharedFilesCount} exceeds u32")
  refuseIf (fileOffset + sharedFilesCount > u32Max ∨ fileOffset + sharedFilesCount > endOfFiles)
    (corrupt s!"shared_files_count {sharedFilesCount} larger than the regular-file range")
  return {
    dirOffset := min (defaultToTotal (first .directory)) total
    symlinkOffset := min (defaultToTotal (first .symlink)) total
    fileOffset
    sharedFileOffset := endOfFiles - sharedFilesCount
    deviceOffset
    specialOffset
    total }

/-- Slot of a regular file in `chunk_table`. -/
def chunkTableSlot (offsets : InodeOffsets) (sharedFiles : List UInt32) (inode : UInt32) :
    Result Nat := do
  let numUnique ← subWord offsets.sharedFileOffset offsets.fileOffset
  if inode.toNat < offsets.sharedFileOffset then
    refuseIf (inode.toNat < offsets.fileOffset) (corrupt s!"inode {inode} is not a regular file")
    return inode.toNat - offsets.fileOffset
  else
    let sharedSlot := inode.toNat - offsets.sharedFileOffset
    let group ← okOr sharedFiles[sharedSlot]?
      (corrupt s!"shared_files index {sharedSlot} out of range")
    okOr (checkedAddWord numUnique group.toNat) (corrupt "shared file chunk index overflow")

end Offsets

end Rdwarfs.Source.Fs
