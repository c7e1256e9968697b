import Rdwarfs.Source.Fs.Filesystem

/-!
# The FUSE adapter's directory listing

fuse/mod.rs:74-84, 114-128, 236-292, `readdir`. FUSE numbers inodes from 1, and a reply takes
entries until its buffer is full; `room` is how many that is. The bytes of a reply are not
modelled.
-/
namespace Rdwarfs.Source.Fuse

open Lib.Machine Fs

inductive FileType where
  | namedPipe
  | charDevice
  | blockDevice
  | directory
  | regularFile
  | symlink
  | socket
  deriving DecidableEq, Repr

inductive Errno where
  | enoent
  | enotdir
  deriving DecidableEq, Repr

/-- Kinds the metadata does not classify surface as regular files. -/
def fileType : InodeKind → FileType
  | .directory => .directory
  | .regular => .regularFile
  | .symlink => .symlink
  | .blockDevice => .blockDevice
  | .charDevice => .charDevice
  | .fifo => .namedPipe
  | .socket => .socket
  | .unknown => .regularFile

/-- From the kernel's numbering, in which 0 is reserved. -/
def dwarfsIno (fuseIno : Nat) : Res Errno UInt32 :=
  if fuseIno = 0 then fail .enoent
  else if fuseIno - 1 < 2 ^ 32 then .ok (UInt32.ofNat (fuseIno - 1))
  else fail .enoent

def fuseIno (dwarfsIno : UInt32) : Nat := dwarfsIno.toNat + 1

/-- What one call of `reply.add` names, its cookie apart. -/
structure Entry where
  ino : Nat
  kind : FileType
  name : Bytes
  deriving DecidableEq, Repr

/-- The reply under construction: the entries added, each with its cookie. -/
structure ReplyDirectory where
  room : Nat
  entries : List (Entry × Nat)

/-- `true` when the buffer is full and the entry was not taken. -/
def ReplyDirectory.add (reply : ReplyDirectory) (cookie : Nat) (entry : Entry) :
    Bool × ReplyDirectory :=
  match reply.room with
  | 0 => (true, reply)
  | room + 1 => (false, { room, entries := reply.entries ++ [(entry, cookie)] })

/-- "." -/
def dotName : Bytes := [0x2E]

/-- ".." -/
def dotDotName : Bytes := [0x2E, 0x2E]

/-- The root is its own parent. -/
def dots (dir parent : UInt32) : List Entry :=
  [{ ino := fuseIno dir, kind := .directory, name := dotName },
   { ino := fuseIno parent, kind := .directory, name := dotDotName }]

/-- The loop over `.` and `..`: whether the buffer is full, the index and the reply. -/
def addDots (offset : Nat) : List Entry → Nat → ReplyDirectory → Bool × Nat × ReplyDirectory
  | [], index, reply => (false, index, reply)
  | entry :: rest, index, reply =>
    if index ≥ offset then
      match reply.add (index + 1) entry with
      | (true, reply) => (true, index, reply)
      | (false, reply) => addDots offset rest (index + 1) reply
    else addDots offset rest (index + 1) reply

/-- The callback of the walk; its state is the index and the reply. -/
def visitChild (offset : Nat) (state : Nat × ReplyDirectory) (child : UInt32) (kind : InodeKind)
    (name : Bytes) : (Nat × ReplyDirectory) × Bool :=
  let (index, reply) := state
  if index < offset then ((index + 1, reply), true)
  else
    let (done, reply) := reply.add (index + 1) { ino := fuseIno child, kind := fileType kind, name }
    ((index + 1, reply), !done)

/-- `self.fs.parent(dwarfs_ino).unwrap_or(dwarfs_ino)` -/
def parentOrSelf (fs : Filesystem) (dir : UInt32) : Res Errno UInt32 :=
  match fs.parent dir with
  | .ok parent => .ok parent
  | .error (.err _) => .ok dir
  | .error .panic => panicked

/-- The entries one call replies with, into a buffer that takes `room` of them. -/
def readdir (fs : Filesystem) (ino offset room : Nat) : Res Errno (List (Entry × Nat)) := do
  let dir ← dwarfsIno ino
  let parent ← parentOrSelf fs dir
  match addDots offset (dots dir parent) 0 { room, entries := [] } with
  | (true, _, reply) => .ok reply.entries
  | (false, index, reply) =>
    match fs.forEachEntry dir (visitChild offset) (index, reply) with
    | .ok (_, reply) => .ok reply.entries
    | .error (.err _) => fail .enotdir
    | .error .panic => panicked

end Rdwarfs.Source.Fuse
