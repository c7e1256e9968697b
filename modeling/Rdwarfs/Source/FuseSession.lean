import Rdwarfs.Source.Fs.Lookup
import Rdwarfs.Source.Fs.Read
import Rdwarfs.Source.Fs.Stat
import Rdwarfs.Source.Fuse

/-!
# A mount serving requests

fuse/mod.rs:47-110, 134-234, the handlers of `DwarfsFuse`. The dispatcher serves one request
after another; what is left behind of one for the next is the block cache. `makedev` is the C
library's. How long the kernel keeps a reply, file handles and the lock that takes requests in turn
are not modelled.
-/
namespace Rdwarfs.Source.Fuse

open Lib.Machine Lib.Oracle Fs

/-- The errors a handler replies with. -/
inductive Refused where
  | enoent
  | enotdir
  | eio
  | einval
  deriving DecidableEq, Repr

def Errno.refused : Errno → Refused
  | .enoent => .enoent
  | .enotdir => .enotdir

/-- Times are seconds since the epoch. -/
structure FileAttr where
  ino : Nat
  size : Nat
  blocks : Nat
  atime : Nat
  mtime : Nat
  ctime : Nat
  crtime : Nat
  kind : FileType
  perm : UInt16
  nlink : Nat
  uid : UInt32
  gid : UInt32
  rdev : UInt32
  blksize : UInt32
  deriving DecidableEq, Repr

/-- Past what a signed 64-bit second count holds, the epoch. -/
def epochToSystemTime (epoch : Nat) : Nat := if epoch < 2 ^ 63 then epoch else 0

section Attributes

variable (makedev : UInt32 → UInt32 → UInt64) (fs : Filesystem)

/-- `encode_rdev`: the major number is in the upper half. -/
def encodeRdev (dwarfsRdev : UInt64) : UInt32 :=
  (makedev (dwarfsRdev >>> 32).toUInt32 dwarfsRdev.toUInt32).toUInt32

def attrOf (inode : UInt32) : Result FileAttr := do
  let stat ← fs.stat inode
  return {
    ino := fuseIno inode
    size := stat.size
    blocks := (stat.size + 511) / 512
    atime := epochToSystemTime stat.atime
    mtime := epochToSystemTime stat.mtime
    ctime := epochToSystemTime stat.ctime
    crtime := epochToSystemTime stat.mtime
    kind := fileType stat.kind
    perm := (stat.mode &&& 0o7777).toUInt16
    nlink := stat.nlink
    uid := stat.uid
    gid := stat.gid
    rdev := encodeRdev makedev stat.rdev
    blksize := fs.blockSize }

end Attributes

inductive Request where
  | lookup (parent : UInt64) (name : Bytes)
  | open_ (ino : UInt64)
  | getattr (ino : UInt64)
  | readlink (ino : UInt64)
  | read (ino offset : UInt64) (size : UInt32)
  /-- `room` is how many entries the reply buffer takes. -/
  | readdir (ino offset : UInt64) (room : Nat)

inductive Reply where
  | entry (attr : FileAttr)
  | opened
  | attr (attr : FileAttr)
  | data (bytes : Bytes)
  | directory (entries : List (Entry × Nat))
  | error (errno : Refused)
  deriving DecidableEq, Repr

/-- A handler replies unless it panics. -/
abbrev Answer := Res Empty Reply

section Handlers

/-- `match result { Ok(value) => .., Err(_) => reply.error(errno) }` -/
def orElse {α : Type} (result : Result α) (errno : Refused) (shown : α → Reply) : Answer :=
  match result with
  | .ok value => .ok (shown value)
  | .error (.err _) => .ok (.error errno)
  | .error .panic => panicked

/-- The opening of every handler: the kernel's number for the inode, or the reply to a bad one. -/
def withIno {α : Type} (ino : UInt64) (reply : Answer → α) (handler : UInt32 → α) : α :=
  match dwarfsIno ino.toNat with
  | .ok inode => handler inode
  | .error (.err errno) => reply (.ok (.error errno.refused))
  | .error .panic => reply panicked

variable (makedev : UInt32 → UInt32 → UInt64) (fs : Filesystem)

def lookup (parent : UInt64) (name : Bytes) : Answer :=
  withIno parent id fun dir =>
    match fs.lookupChild dir name with
    | .ok (some child) => orElse (attrOf makedev fs child) .eio .entry
    | .ok none => .ok (.error .enoent)
    | .error (.err _) => .ok (.error .enoent)
    | .error .panic => panicked

def getattr (ino : UInt64) : Answer :=
  withIno ino id fun inode =>
    orElse (attrOf makedev fs inode) .enoent .attr

def readlink (ino : UInt64) : Answer :=
  withIno ino id fun inode =>
    orElse (fs.readLink inode) .einval .data

/-- The listing of Source.Fuse, as a reply. -/
def replyDirectory (ino offset : UInt64) (room : Nat) : Answer :=
  match readdir fs ino.toNat offset.toNat room with
  | .ok entries => .ok (.directory entries)
  | .error (.err errno) => .ok (.error errno.refused)
  | .error .panic => panicked

variable (libs : Codecs.Libraries) (budget : Nat)

def read (ino offset : UInt64) (size : UInt32) (cache : Inner) : Option (Answer × Inner) :=
  withIno ino (fun answer => some (answer, cache)) fun inode =>
    let buf := List.replicate size.toNat 0
    ((fs.readInto inode offset.toNat buf).run (fs.decodeBlock libs budget) cache).map
      fun outcome => (orElse outcome.1 .eio fun done => .data (done.2.take done.1), outcome.2)

/-- One request; only a read looks at the cache. -/
def handle (request : Request) (cache : Inner) : Option (Answer × Inner) :=
  match request with
  | .lookup parent name => some (lookup makedev fs parent name, cache)
  | .open_ _ => some (.ok .opened, cache)
  | .getattr ino => some (getattr makedev fs ino, cache)
  | .readlink ino => some (readlink fs ino, cache)
  | .read ino offset size => read fs libs budget ino offset size cache
  | .readdir ino offset room => some (replyDirectory fs ino offset room, cache)

/-- One request after another; a panic ends the mount. -/
def serve : List Request → Inner → Option (Res Empty (List Reply) × Inner)
  | [], cache => some (.ok [], cache)
  | request :: later, cache =>
    match handle makedev fs libs budget request cache with
    | none => none
    | some (.error failure, cache) => some (.error failure, cache)
    | some (.ok reply, cache) =>
      (serve later cache).map fun served =>
        (served.1 >>= fun replies => .ok (reply :: replies), served.2)

end Handlers

end Rdwarfs.Source.Fuse
