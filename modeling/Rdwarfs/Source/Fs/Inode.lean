import Mathlib.Tactic.Common

/-!
# Inode kinds

fs/inode.rs:3-45, and the five classes the inode table is partitioned into.
-/
namespace Rdwarfs.Source.Fs

inductive InodeKind where
  | directory
  | symlink
  | regular
  | charDevice
  | blockDevice
  | fifo
  | socket
  | unknown
  deriving DecidableEq, Repr

/-- `S_IFMT`. -/
def formatMask : UInt32 := 0o170000

def modeKind (mode : UInt32) : InodeKind :=
  let format := mode &&& formatMask
  if format = 0o040000 then .directory
  else if format = 0o120000 then .symlink
  else if format = 0o100000 then .regular
  else if format = 0o020000 then .charDevice
  else if format = 0o060000 then .blockDevice
  else if format = 0o010000 then .fifo
  else if format = 0o140000 then .socket
  else .unknown

/-- The classes of inodes the format numbers consecutively. -/
inductive Partition where
  | directory
  | symlink
  | file
  | device
  | special
  deriving DecidableEq, Repr

def InodeKind.partition : InodeKind → Option Partition
  | .directory => some .directory
  | .symlink => some .symlink
  | .regular => some .file
  | .charDevice | .blockDevice => some .device
  | .fifo | .socket => some .special
  | .unknown => none

end Rdwarfs.Source.Fs
