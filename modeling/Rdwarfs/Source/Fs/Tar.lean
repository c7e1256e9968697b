import Rdwarfs.Lib.Utf8
import Rdwarfs.Source.Fs.Extract
import Rdwarfs.Source.Fs.Read
import Rdwarfs.Source.Fs.Stat

/-!
# Writing a tar archive

fs/tar.rs:21-141. The archive format lives in another package: `TarCrate` says what it takes and
into how large buffers it reads, and what it takes it stores as it is. The bytes of the archive and
errors of the stream it is written to are not modelled.
-/
namespace Rdwarfs.Source.Fs

open Lib.Machine Lib.Oracle Codecs

inductive EntryType where
  | directory
  | symlink
  | regular
  deriving DecidableEq, Repr

structure TarHeader where
  mode : UInt32
  uid : UInt32
  gid : UInt32
  mtime : Nat
  entryType : EntryType
  size : Nat
  linkName : Bytes
  deriving DecidableEq, Repr

structure Member where
  header : TarHeader
  path : Bytes
  data : Bytes
  deriving DecidableEq, Repr

structure TarCrate where
  /-- `set_link_name` -/
  acceptsLink : Bytes → Bool
  /-- The part of `append_data` before any data, given the archive so far. -/
  acceptsMember : List Member → TarHeader → Bytes → Bool
  /-- The size of the buffer for the next read, given the data so far. -/
  room : TarHeader → Bytes → Nat
  /-- Whether the data can be written out. -/
  acceptsData : List Member → Member → Bool
  /-- `finish` and `into_inner` -/
  finishes : List Member → Bool

/-- `map_err(map_io)`, or the error a `Read` wraps the crate's own in. -/
def mapIo {α : Type} (result : Result α) : Result α :=
  match result with
  | .error (.err _) => fail .io
  | other => other

/-- UTF-8 whatever the path is; `.` for nothing. -/
def tarPath (path : Bytes) : Bytes :=
  let trimmed := stripSlash path
  if trimmed = [] then [0x2E] else Lib.Utf8.lossy trimmed

/-- `str::from_utf8(target).unwrap_or("")` -/
def linkName (target : Bytes) : Bytes :=
  if Lib.Utf8.wellFormed target then target else []

structure FileReader where
  inode : UInt32
  remaining : Nat
  offset : Nat
  deriving DecidableEq, Repr

namespace Filesystem

variable (fs : Filesystem) (libs : Libraries) (crate : TarCrate)

def tarBudget : Nat := 8 * fs.blockSize.toNat

/-- `FileReader::read` into a buffer of `bufLen` bytes, through the archive's cache. -/
def fileReaderRead (reader : FileReader) (bufLen : Nat) (cache : Inner) :
    Option (Result (Bytes × FileReader) × Inner) :=
  if reader.remaining = 0 ∨ bufLen = 0 then some (.ok ([], reader), cache)
  else
    let want := min bufLen reader.remaining
    match (fs.readAt reader.inode reader.offset want).run (fs.decodeBlock libs fs.tarBudget) cache with
    | none => none
    | some (result, cache) =>
      some (mapIo result >>= fun bytes => do
        -- `buf[..n]` and the two plain operators on the counters
        let _ ← (slice (List.replicate bufLen (0 : UInt8)) 0 bytes.length : Result Bytes)
        let offset ← addWord reader.offset bytes.length
        let remaining ← subWord reader.remaining bytes.length
        return (bytes, { reader with offset, remaining }), cache)

theorem fileReaderRead_shrinks {reader next : FileReader} {bufLen : Nat} {cache after : Inner}
    {bytes : Bytes}
    (read : fs.fileReaderRead libs reader bufLen cache = some (.ok (bytes, next), after))
    (some_ : bytes ≠ []) : next.remaining < reader.remaining := by
  unfold fileReaderRead at read
  split at read
  · cases read
    exact absurd rfl some_
  · dsimp only at read
    split at read
    · cases read
    · simp only [Option.some.injEq, Prod.mk.injEq, bind_eq_ok] at read
      obtain ⟨⟨found, _, _, _, offset, _, remaining, subtracted, done⟩, rfl⟩ := read
      cases done
      have positive := List.length_pos_iff.mpr some_
      unfold subWord at subtracted
      split at subtracted
      · cases subtracted
        simp only
        omega
      · cases subtracted

/-- The crate reads a member's data until a read comes back empty. -/
def pull (header : TarHeader) (reader : FileReader) (data : Bytes) (cache : Inner) :
    Option (Result Bytes × Inner) :=
  match _read : fs.fileReaderRead libs reader (crate.room header data) cache with
  | none => none
  | some (.error failure, cache) => some (.error failure, cache)
  | some (.ok (bytes, next), cache) =>
    if _ended : bytes = [] then some (.ok data, cache)
    else pull header next (data ++ bytes) cache
termination_by reader.remaining
decreasing_by exact fs.fileReaderRead_shrinks libs _read _ended

/-- `append_data`, its `data` already read or never failing. -/
def appendData (archive : List Member) (header : TarHeader) (path data : Bytes) :
    Result (List Member) := do
  refuseIf (crate.acceptsData archive ⟨header, path, data⟩ = false) .io
  return archive ++ [⟨header, path, data⟩]

/-- The body of the loop over the entries. -/
def tarEntry (entry : WalkEntry) (cache : Inner) (archive : List Member) :
    Option (Result (List Member) × Inner) :=
  if entry.path = [] then some (.ok archive, cache)
  else
    match fs.stat entry.inode with
    | .error failure => some (.error failure, cache)
    | .ok stat =>
      let path := tarPath entry.path
      let header (entryType : EntryType) (size : Nat) (linkName : Bytes) : TarHeader :=
        { mode := stat.mode &&& 0o7777, uid := stat.uid, gid := stat.gid, mtime := stat.mtime
          entryType, size, linkName }
      match entry.kind with
      | .directory =>
        let header := header .directory 0 []
        some (refuseIf (crate.acceptsMember archive header path = false) .io >>= fun _ =>
          appendData crate archive header path [], cache)
      | .symlink =>
        some (fs.readLink entry.inode >>= fun target =>
          let header := header .symlink 0 (linkName target)
          refuseIf (crate.acceptsLink (linkName target) = false) .io >>= fun _ =>
            refuseIf (crate.acceptsMember archive header path = false) .io >>= fun _ =>
              appendData crate archive header path [], cache)
      | .regular =>
        match fs.fileSize entry.inode with
        | .error failure => some (.error failure, cache)
        | .ok size =>
          let header := header .regular size []
          if crate.acceptsMember archive header path = false then some (fail .io, cache)
          else
            match fs.pull libs crate header ⟨entry.inode, size, 0⟩ [] cache with
            | none => none
            | some (data, cache) =>
              some (data >>= fun data => appendData crate archive header path data, cache)
      | _ => some (.ok archive, cache)

def tarEntries : List WalkEntry → Inner → List Member → Option (Result (List Member))
  | [], _, archive => some (.ok archive)
  | entry :: rest, cache, archive =>
    match fs.tarEntry libs crate entry cache archive with
    | none => none
    | some (.error failure, _) => some (.error failure)
    | some (.ok archive, cache) => tarEntries rest cache archive

/-- The archive written, if it is finished. -/
def writeTar (depth : Nat) : Option (Result (List Member)) :=
  match fs.walk depth with
  | none => none
  | some (.error failure) => some (.error failure)
  | some (.ok entries) =>
    match fs.tarEntries libs crate entries .empty [] with
    | some (.ok archive) => some (if crate.finishes archive then .ok archive else fail .io)
    | stopped => stopped

end Filesystem

end Rdwarfs.Source.Fs
