import Rdwarfs.Source.Fs.Filesystem

/-!
# What is known about one inode

fs/read.rs:84-111, 302-315, 395-468, 850-862: `stat`, `read_link`, `device_rdev` and
`content_id`. Inode numbers are 32-bit words; the only plain subtraction is the one in
`read_link`.
-/
namespace Rdwarfs.Source.Fs

open Lib.Machine Metadata

structure Stat where
  inode : UInt32
  kind : InodeKind
  mode : UInt32
  uid : UInt32
  gid : UInt32
  mtime : Nat
  atime : Nat
  ctime : Nat
  size : Nat
  nlink : Nat
  rdev : UInt64
  deriving DecidableEq, Repr

/-- `result.unwrap_or(default)`; a panic is not a result. -/
def unwrapOr {α : Type} (result : Result α) (default : α) : Result α :=
  match result with
  | .error (.err _) => .ok default
  | other => other

namespace Filesystem

variable (fs : Filesystem)

/-- Encoded device number of a device inode. -/
def deviceRdev (inode : UInt32) : Result UInt64 := do
  let kind ← fs.kind inode
  refuseIf (kind ≠ .blockDevice ∧ kind ≠ .charDevice) (corrupt s!"inode {inode} is not a device")
  refuseIf (inode.toNat < fs.offsets.deviceOffset)
    (corrupt s!"device inode {inode} precedes device offset")
  let idx := inode.toNat - fs.offsets.deviceOffset
  okOr fs.devices[idx]? (corrupt s!"device index {idx} out of range")

/-- Symlink target as raw bytes. -/
def readLink (inode : UInt32) : Result Bytes := do
  let kind ← fs.kind inode
  refuseIf (kind ≠ .symlink) (corrupt s!"inode {inode} is not a symlink")
  let slot ← subWord inode.toNat fs.offsets.symlinkOffset
  let tableValue ← okOr fs.symlinkTable[slot]?
    (corrupt s!"symlink_table index {slot} out of range")
  okOr (fs.symlinks.get tableValue.toNat) (corrupt s!"symlinks index {tableValue} out of range")

/-- The closure `at` of `stat`. -/
def timestamp (offset : UInt64) : Result Nat := do
  let resolution := ((fs.options.timeResolutionSec.map UInt32.toNat).getD 1)
  let scaled ← okOr ((Arith.machine .checked).checkedMul offset.toNat resolution)
    (corrupt "time resolution multiplication overflows")
  okOr (checkedAddWord fs.timestampBase.toNat scaled) (corrupt "timestamp exceeds u64")

/-- Access and status-change time; an image may record only modification times. -/
def otherTimes (info : InodeData) (mtime : Nat) : Result (Nat × Nat) :=
  if fs.options.mtimeOnly then .ok (mtime, mtime)
  else do
    let atime ← fs.timestamp info.atimeOffset
    let ctime ← fs.timestamp info.ctimeOffset
    return (atime, ctime)

def statSize (inode : UInt32) (kind : InodeKind) : Result Nat :=
  if kind = .regular then fs.fileSize inode else .ok 0

def statRdev (inode : UInt32) (kind : InodeKind) : Result UInt64 :=
  if kind = .blockDevice ∨ kind = .charDevice then unwrapOr (fs.deviceRdev inode) 0 else .ok 0

def statLinks (info : InodeData) : Nat :=
  if fs.options.inodesHaveNlink then min (info.nlinkMinusOne.toNat + 1) u32Max else 1

def stat (inode : UInt32) : Result Stat := do
  let i ← fs.inodeIndex inode
  let info ← index fs.inodes i
  let mode ← fs.modeAt info.modeIndex
  let kind := modeKind mode
  let uid ← okOr fs.uids[info.ownerIndex.toNat]?
    (corrupt s!"uid index {info.ownerIndex} out of range")
  let gid ← okOr fs.gids[info.groupIndex.toNat]?
    (corrupt s!"gid index {info.groupIndex} out of range")
  let mtime ← fs.timestamp info.mtimeOffset
  let (atime, ctime) ← fs.otherTimes info mtime
  let size ← fs.statSize inode kind
  let rdev ← fs.statRdev inode kind
  return { inode, kind, mode, uid, gid, mtime, atime, ctime, size, nlink := fs.statLinks info, rdev }

/-- Identity of a regular file's content. -/
def contentId (inode : UInt32) : Result UInt32 := do
  let slot ← fs.chunkTableSlot inode
  refuseIf (slot > u32Max) (corrupt s!"content id {slot} exceeds u32")
  return UInt32.ofNat slot

end Filesystem

end Rdwarfs.Source.Fs
