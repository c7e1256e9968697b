import Rdwarfs.Lib.Interleaving
import Rdwarfs.Source.Fs.Glob
import Rdwarfs.Source.Fs.Read
import Rdwarfs.Source.Fs.Stat

/-!
# Extracting a tree

fs/extract.rs:156-437, `extract_all`. What happens outside the program is a request: the calls
of the operating system, the reads through a block cache, and the insertions into the map that the
writers of phase 2 share. A path matters only through its components, by which the source
also compares paths. `attempts` is not in the source: it keeps, for each position of the
selection, how every operation on it ended. The budget of the cache is not modelled.
-/
namespace Rdwarfs.Source.Fs

open Lib.Machine Lib.Oracle Lib.UnixPath Lib.Interleaving

abbrev Place := List Component

inductive Request where
  | createDirAll (place : Place)
  | create (place : Place)
  | writeAll (place : Place) (bytes : Bytes)
  | hardLink (source target : Place)
  | copy (source target : Place)
  | symlink (link : Bytes) (target : Place)
  | readInto (inode : UInt32) (offset : Nat) (buf : Bytes)
  /-- `written_paths.lock()` and `insert` -/
  | insert (content : UInt32) (place : Place)
  deriving DecidableEq, Repr

inductive Reply where
  | succeeded
  | failed
  | read (outcome : Result (Nat × Bytes))

abbrev Extracting := Prog Request Reply Error

structure ExtractStats where
  directories : Nat := 0
  files : Nat := 0
  hardlinks : Nat := 0
  symlinks : Nat := 0
  skipped : Nat := 0
  errors : Nat := 0
  deriving DecidableEq, Repr

/-- The counters of `extract_all`. -/
structure Tally where
  stats : ExtractStats := {}
  errors : Nat := 0
  attempts : List (Nat × Bool) := []
  deriving DecidableEq, Repr

namespace Extraction

/-- A call of the operating system, its error mapped to `Error::Io`. -/
def call (request : Request) : Extracting Unit :=
  .ask request fun reply =>
    match reply with
    | .succeeded => .done (.ok ())
    | _ => .done (fail .io)

def targetOf (dest : Path) (entry : WalkEntry) : Place :=
  components (resolvePath dest entry.path)

/-- `Path::parent` -/
def parentOf (place : Place) : Option Place :=
  match place.getLast? with
  | none | some .rootDir => none
  | some _ => some place.dropLast

def createParent (target : Place) : Extracting Unit :=
  match parentOf target with
  | some parent => call (.createDirAll parent)
  | none => pure ()

def makeDirectory (dest : Path) (entry : WalkEntry) : Extracting Unit :=
  call (.createDirAll (targetOf dest entry))

def linkHardlink (source target : Place) : Extracting Unit := do
  createParent target
  call (.hardLink source target)

/-- The loop of `write_regular`, the file open and `buf` the buffer of every read. -/
def writeFrom (inode : UInt32) (target : Place) (size offset : Nat) (buf : Bytes) :
    Extracting Unit :=
  if _before : offset < size then
    .ask (.readInto inode offset buf) fun reply =>
      match reply with
      | .read (.ok (n, buf)) =>
        if _ended : n = 0 then .done (.ok ())
        else
          Prog.lift (slice buf 0 n) >>= fun bytes =>
            call (.writeAll target bytes) >>= fun _ =>
              Prog.lift (addWord offset n : Result Nat) >>= fun _ =>
                writeFrom inode target size (offset + n) buf
      | .read (.error failure) => .done (.error failure)
      | _ => .done (fail .io)
  else .done (.ok ())
termination_by size - offset

variable (fs : Filesystem)

def writeRegular (inode : UInt32) (target : Place) : Extracting Nat := do
  createParent target
  call (.create target)
  let size ← Prog.lift (fs.fileSize inode)
  writeFrom inode target size 0 (List.replicate (min (2 ^ 20) (max size 1)) 0)
  return size

def writeSymlink (dest : Path) (entry : WalkEntry) : Extracting Unit := do
  let target := targetOf dest entry
  let link ← Prog.lift (fs.readLink entry.inode)
  createParent target
  call (.symlink link target)

/-- The closure `write_one`. -/
def writeOne (dest : Path) (entry : WalkEntry) : Extracting Nat := do
  let target := targetOf dest entry
  let bytes ← writeRegular fs entry.inode target
  let content ← Prog.lift (fs.contentId entry.inode)
  Prog.question (.insert content target) >>= fun _ => return bytes

end Extraction

open Extraction

namespace Tally

/-- One operation is over: it is counted by `count`, or it is an error to go on from. -/
def settle (options : ExtractOptions) (tally : Tally) (position : Nat)
    (count : ExtractStats → ExtractStats) : Except Error Unit → Result Tally
  | .ok () =>
    .ok { tally with
      stats := count tally.stats
      attempts := tally.attempts ++ [(position, true)] }
  | .error reason =>
    if options.continueOnError then
      .ok { tally with
        stats := { tally.stats with errors := tally.stats.errors + 1 }
        errors := tally.errors + 1
        attempts := tally.attempts ++ [(position, false)] }
    else fail reason

/-- What `extract_all` returns at its end. -/
def conclude (tally : Tally) : Result ExtractStats := do
  refuseIf (tally.errors > 0)
    (.decode "fs-extract" s!"{tally.errors} entries failed during extraction")
  return tally.stats

end Tally

/-- What phase 1 leaves for the others: the selection with its positions, and the first file
of each content. -/
structure Plan where
  entries : List (WalkEntry × Nat)
  writers : List (WalkEntry × Nat)
  tally : Tally

namespace Filesystem

variable (fs : Filesystem) (dest : Path) (options : ExtractOptions)

/-- `first_block`, which has no error of its own. -/
def firstBlock (inode : UInt32) : Option UInt32 :=
  match fs.chunkRange inode with
  | .ok (start, _) => (fs.chunks[start]?).map (·.block)
  | .error _ => none

/-- Phase 1. -/
def makeDirectories : List (WalkEntry × Nat) → Tally → Extracting Tally
  | [], tally => pure tally
  | (entry, position) :: rest, tally =>
    if entry.kind ≠ .directory then makeDirectories rest tally
    else do
      let outcome ← attempted (makeDirectory dest entry)
      let tally ← Prog.lift (tally.settle options position
        (fun stats => { stats with directories := stats.directories + 1 }) outcome)
      makeDirectories rest tally

/-- The regular files whose content no earlier one has. -/
def firstWriters : List (WalkEntry × Nat) → List UInt32 → Result (List (WalkEntry × Nat))
  | [], _ => .ok []
  | (entry, position) :: rest, seen =>
    if entry.kind ≠ .regular then firstWriters rest seen
    else do
      let content ← fs.contentId entry.inode
      let others ← firstWriters rest (content :: seen)
      return if content ∈ seen then others else (entry, position) :: others

/-- The order of `sort_by_key`: a file without a block comes first. -/
def writerLe (one other : WalkEntry × Nat) : Bool :=
  match fs.firstBlock one.1.inode, fs.firstBlock other.1.inode with
  | none, none => one.1.inode ≤ other.1.inode
  | none, some _ => true
  | some _, none => false
  | some block, some block' => block < block' || (block = block' && one.1.inode ≤ other.1.inode)

/-- `extract_all` up to the writes of phase 2, given what `walk` returned. -/
def prepare (walked : Result (List WalkEntry)) : Extracting Plan := do
  call (.createDirAll (components dest))
  let entries ← Prog.lift walked
  let selected ← Prog.lift (options.select entries)
  let tally ← makeDirectories dest options selected.zipIdx {}
  let writers ← Prog.lift (fs.firstWriters selected.zipIdx [])
  return { entries := selected.zipIdx, writers := writers.mergeSort fs.writerLe, tally }

/-- The results of phase 2, in the order of the writers. -/
def gather : List ((WalkEntry × Nat) × Except Error Nat) → Tally → Result Tally
  | [], tally => .ok tally
  | ((_, position), outcome) :: rest, tally => do
    let tally ← tally.settle options position
      (fun stats => { stats with files := stats.files + 1 }) (outcome.map fun _ => ())
    gather rest tally

/-- Phase 3, with the map that phase 2 left. -/
def placeOthers : List (WalkEntry × Nat) → (UInt32 → Option Place) → Tally → Extracting Tally
  | [], _, tally => pure tally
  | (entry, position) :: rest, written, tally =>
    match entry.kind with
    | .directory => placeOthers rest written tally
    | .regular => do
      let content ← Prog.lift (fs.contentId entry.inode)
      let target := targetOf dest entry
      match written content with
      | some first =>
        if first = target then
          placeOthers rest written
            { tally with attempts := tally.attempts ++ [(position, true)] }
        else if options.hardlinkShared then do
          let outcome ← attempted (linkHardlink first target)
          let tally ← Prog.lift (tally.settle options position
            (fun stats => { stats with hardlinks := stats.hardlinks + 1 }) outcome)
          placeOthers rest written tally
        else do
          let outcome ← attempted (call (.copy first target))
          let tally ← Prog.lift (tally.settle options position
            (fun stats => { stats with files := stats.files + 1 }) outcome)
          placeOthers rest written tally
      | none => do
        -- through a cache of its own
        let outcome ← attempted (writeRegular fs entry.inode target >>= fun _ => pure ())
        let tally ← Prog.lift (tally.settle options position
          (fun stats => { stats with files := stats.files + 1 }) outcome)
        let written := match outcome with
          | .ok () => Function.update written content (some target)
          | .error _ => written
        placeOthers rest written tally
    | .symlink => do
      let outcome ← attempted (writeSymlink fs dest entry)
      let tally ← Prog.lift (tally.settle options position
        (fun stats => { stats with symlinks := stats.symlinks + 1 }) outcome)
      placeOthers rest written tally
    | _ => do
      let tally ← Prog.lift (tally.settle options position
        (fun stats => { stats with skipped := stats.skipped + 1 }) (.ok ()))
      placeOthers rest written tally

/-- `extract_all` after the writes of phase 2. -/
def complete (plan : Plan) (results : List (Result Nat)) (written : UInt32 → Option Place) :
    Extracting Tally := do
  let outcomes ← Prog.lift (collect attempt results)
  let tally ← Prog.lift (gather options (plan.writers.zip outcomes) plan.tally)
  fs.placeOthers dest options plan.entries written tally

end Filesystem

/-- The world outside and the shared map of phase 2. -/
structure Scene (σ : Type) where
  outside : σ
  written : UInt32 → Option Place

/-- The lock on the map is the program's own; everything else is answered from outside. -/
def inScene {σ : Type} (outside : World Request Reply σ) : World Request Reply (Scene σ)
  | before, .insert content place, reply, after =>
    reply = .succeeded ∧
      after = { before with written := Function.update before.written content (some place) }
  | before, request, reply, after =>
    outside before.outside request reply after.outside ∧ after.written = before.written

/-- The runs of `extract_all`: the results of the writers of phase 2, which take turns in any
order, and the counters at the end or the error it returns early with. -/
inductive Extracts {σ : Type} (outside : World Request Reply σ) (fs : Filesystem) (dest : Path)
    (options : ExtractOptions) (walked : Result (List WalkEntry)) :
    σ → List (Result Nat) → Result Tally → σ → Prop
  | early {before : σ} {failure : Failure Error} {stopped : Scene σ}
      (prepared : Runs (inScene outside) (fs.prepare dest options walked) ⟨before, fun _ => none⟩
        (.error failure) stopped) :
      Extracts outside fs dest options walked before [] (.error failure) stopped.outside
  | whole {before : σ} {plan : Plan} {ready joined final : Scene σ} {results : List (Result Nat)}
      {outcome : Result Tally}
      (prepared : Runs (inScene outside) (fs.prepare dest options walked) ⟨before, fun _ => none⟩
        (.ok plan) ready)
      (wrote : Interleaves (inScene outside) (plan.writers.map fun writer =>
        writeOne fs dest writer.1) ready results joined)
      (completed : Runs (inScene outside) (fs.complete dest options plan results joined.written)
        joined outcome final) :
      Extracts outside fs dest options walked before results outcome final.outside

end Rdwarfs.Source.Fs
