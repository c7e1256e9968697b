import Rdwarfs.Source.Fs.Filesystem

/-!
# Walking the directory tree

fs/read.rs:138-145, 690-720, `walk` and `walk_inner`. The recursion follows whatever inode an
entry names, so it is indexed by the depth it may use and answers `none` when it needs more. The
size of the stack is not modelled.
-/
namespace Rdwarfs.Source.Fs

open Lib.Machine Metadata

structure WalkEntry where
  path : Bytes
  inode : UInt32
  kind : InodeKind
  deriving DecidableEq, Repr

/-- `b'/'` -/
def slash : UInt8 := 0x2F

/-- The path of an entry, given that of its directory. -/
def joinPath (parentPath name : Bytes) : Bytes := parentPath ++ slash :: name

namespace Filesystem

/-- The loop of `walk_inner` over one listing; `descend` is the recursive call. -/
def walkEntries (descend : UInt32 → Bytes → List WalkEntry → Option (Result (List WalkEntry)))
    (parentPath : Bytes) : List Listing → List WalkEntry → Option (Result (List WalkEntry))
  | [], out => some (.ok out)
  | entry :: rest, out =>
    let path := joinPath parentPath entry.name
    let out := out ++ [{ path, inode := entry.inode, kind := entry.kind }]
    if entry.kind = .directory then
      match descend entry.inode path out with
      | some (.ok out) => walkEntries descend parentPath rest out
      | stopped => stopped
    else walkEntries descend parentPath rest out

variable (fs : Filesystem)

/-- Append everything below `inode` to `out`. -/
def walkInner : Nat → UInt32 → Bytes → List WalkEntry → Option (Result (List WalkEntry))
  | 0, _, _, _ => none
  | depth + 1, inode, parentPath, out =>
    match fs.readDir inode with
    | .error failure => some (.error failure)
    | .ok entries => walkEntries (walkInner depth) parentPath entries out

/-- Depth-first traversal from the root. -/
def walk (depth : Nat) : Option (Result (List WalkEntry)) :=
  match fs.kind 0 with
  | .error failure => some (.error failure)
  | .ok kind => fs.walkInner depth 0 [] [{ path := [], inode := 0, kind }]

end Filesystem

end Rdwarfs.Source.Fs
