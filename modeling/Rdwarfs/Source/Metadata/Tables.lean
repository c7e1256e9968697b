import Rdwarfs.Source.Error

/-!
# Rows of the metadata tables

The plain records of metadata/model.rs:59-144, 206-227, with 350-365 and 1151-1173. Field names
follow the Thrift definition.
-/
namespace Rdwarfs.Source.Metadata

open Lib.Machine

/-- A (block, offset, size) view into a block section. -/
structure Chunk where
  block : UInt32
  offset : UInt32
  size : UInt32
  deriving DecidableEq, Repr

structure DirEntry where
  nameIndex : UInt32
  inodeNum : UInt32
  deriving DecidableEq, Repr

/-- A directory, indexed by inode number. -/
structure Directory where
  parentEntry : UInt32
  firstEntry : UInt32
  selfEntry : UInt32
  deriving DecidableEq, Repr

structure FsOptions where
  mtimeOnly : Bool := false
  timeResolutionSec : Option UInt32 := none
  packedChunkTable : Bool := false
  packedDirectories : Bool := false
  packedSharedFilesTable : Bool := false
  subsecondResolutionNsecMultiplier : Option UInt32 := none
  hasBtime : Bool := false
  inodesHaveNlink : Bool := false
  deriving DecidableEq, Repr

structure InodeData where
  modeIndex : UInt32
  ownerIndex : UInt32
  groupIndex : UInt32
  atimeOffset : UInt64
  mtimeOffset : UInt64
  ctimeOffset : UInt64
  btimeOffset : UInt64
  atimeSubsec : UInt64
  mtimeSubsec : UInt64
  ctimeSubsec : UInt64
  btimeSubsec : UInt64
  nlinkMinusOne : UInt32
  deriving DecidableEq, Repr

/-- All strings in one buffer, string `i` between offsets `i` and `i + 1`. -/
structure StringTable where
  data : Bytes
  offsets : List UInt32
  deriving DecidableEq, Repr

namespace StringTable

/-- The default table has no offsets at all. -/
def empty : StringTable := ⟨[], []⟩

def len (table : StringTable) : Nat := table.offsets.length - 1

def get (table : StringTable) (index : Nat) : Option Bytes := do
  let start ← table.offsets[index]?
  let stop ← table.offsets[index + 1]?
  if start.toNat ≤ stop.toNat ∧ stop.toNat ≤ table.data.length then
    some (field table.data start.toNat (stop.toNat - start.toNat))
  else none

end StringTable

/-- `inclusive_prefix_sum_u32`, which model.rs and read.rs each define, from `acc` on. The
additions wrap. -/
def prefixSumFrom (acc : UInt32) : List UInt32 → List UInt32
  | [] => []
  | delta :: rest => (acc + delta) :: prefixSumFrom (acc + delta) rest

def inclusivePrefixSumU32 (deltas : List UInt32) : List UInt32 := prefixSumFrom 0 deltas

def outOfRange (name : String) (value : Nat) : Error :=
  .decode "frozen2-model" s!"{name} value {value} out of range for target type"

/-- Expansion of a packed `shared_files_table`: entry `i` stands for its value plus two
copies of `i`, the index a 32-bit word. -/
def expandSharedFiles : Nat → List UInt32 → Result (List UInt32)
  | _, [] => .ok []
  | i, delta :: rest => do
    let count ← okOr (checkedAddWord delta.toNat 2)
      (outOfRange "shared_files_table run length" delta.toNat)
    refuseIf (2 ^ 32 ≤ i) (outOfRange "shared_files_table size" i)
    let others ← expandSharedFiles (i + 1) rest
    return List.replicate count (UInt32.ofNat i) ++ others

end Rdwarfs.Source.Metadata
