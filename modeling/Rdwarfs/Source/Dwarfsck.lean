import Rdwarfs.Lib.Utf8
import Rdwarfs.Source.Fs.Extract
import Rdwarfs.Source.Fs.Read
import Rdwarfs.Source.Fs.Stat
import Rdwarfs.Source.Fs.Walk

/-!
# The `dwarfsck` command

bin/dwarfsck.rs:534-764: `--checksum`, `--json` and `--export-metadata`. The digests live in
other packages: `Hashes` has each as a function of all bytes it was updated with. The output takes
whatever is written to it; errors of stdout and of the file written are not modelled.
-/
namespace Rdwarfs.Source.Dwarfsck

open Lib.Machine Source.Fs Source.Codecs

section Text

/-- `{:0width$x}` -/
def paddedHex (width value : Nat) : String :=
  let digits := Nat.toDigits 16 value
  String.ofList (List.replicate (width - digits.length) '0' ++ digits)

def hexEncode (bytes : Bytes) : String :=
  bytes.foldl (fun out byte => out ++ paddedHex 2 byte.toNat) ""

/-- The match in `json_string`. -/
def escape (c : Char) : String :=
  match c with
  | '"' => "\\\""
  | '\\' => "\\\\"
  | '\n' => "\\n"
  | '\r' => "\\r"
  | '\t' => "\\t"
  | c => if c.toNat < 0x20 then "\\u" ++ paddedHex 4 c.toNat else c.toString

def jsonString (s : String) : String :=
  s.toList.foldl (fun out c => out ++ escape c) "\"" ++ "\""

/-- A name and a value as the format strings have them. -/
def member (name value : String) : String := s!"\"{name}\":{value}"

end Text

/-- How a run of the command ends. -/
inductive Ending where
  | done
  /-- What the run needs of the filesystem did not return. -/
  | unread (failure : Failure Error)
  | usage (message : String)
  | panicked
  deriving DecidableEq, Repr

section Checksums

structure Hashes where
  sha256 : Bytes → Bytes
  sha512 : Bytes → Bytes
  xxh3_64 : Bytes → UInt64
  xxh3_128 : Bytes → BitVec 128

/-- The names that both matches on the algorithm know. -/
inductive Algorithm where
  | sha256
  | sha512
  | xxh364
  | xxh3128
  deriving DecidableEq, Repr

def Algorithm.named : String → Option Algorithm
  | "sha256" => some .sha256
  | "sha512" => some .sha512
  | "xxh3-64" => some .xxh364
  | "xxh3-128" => some .xxh3128
  | _ => none

/-- What the two digests were updated with, and what was collected for the two others. -/
structure Updates where
  sha256 : Bytes
  sha512 : Bytes
  buf64 : Bytes
  buf128 : Bytes
  deriving DecidableEq, Repr

def Updates.new : Updates := ⟨[], [], [], []⟩

def unknownAlgorithm (alg : String) : Ending := .usage s!"unknown --checksum algorithm `{alg}`"

/-- The match in the loop over the chunks of a file. -/
def Updates.update (updates : Updates) (alg : String) (chunk : Bytes) : Except Ending Updates :=
  match Algorithm.named alg with
  | some .sha256 => .ok { updates with sha256 := updates.sha256 ++ chunk }
  | some .sha512 => .ok { updates with sha512 := updates.sha512 ++ chunk }
  | some .xxh364 => .ok { updates with buf64 := updates.buf64 ++ chunk }
  | some .xxh3128 => .ok { updates with buf128 := updates.buf128 ++ chunk }
  | none => .error (unknownAlgorithm alg)

/-- The match after the loop, whose last arm is `unreachable!()`. -/
def Updates.digestHex (updates : Updates) (hashes : Hashes) (alg : String) : Except Ending String :=
  match Algorithm.named alg with
  | some .sha256 => .ok (hexEncode (hashes.sha256 updates.sha256))
  | some .sha512 => .ok (hexEncode (hashes.sha512 updates.sha512))
  | some .xxh364 => .ok (paddedHex 16 (hashes.xxh3_64 updates.buf64).toNat)
  | some .xxh3128 => .ok (paddedHex 32 (hashes.xxh3_128 updates.buf128).toNat)
  | none => .error .panicked

/-- `Vec::with_capacity`, called for both buffers whatever the algorithm. -/
def withCapacity (size : Nat) : Except Ending Unit :=
  if size < sliceLimit then .ok () else .error .panicked

def chunkSize : Nat := 64 * 1024

variable (fs : Filesystem) (libs : Libraries) (hashes : Hashes) (alg : String)

def checksumBudget : Nat := 8 * fs.blockSize.toNat

/-- The loop over the chunks of a file, from `offset` on. The sum of a word below `size` and of
a chunk no longer than the rest stays a word. -/
def updateAll (inode : UInt32) (size offset : Nat) (updates : Updates) (cache : Inner) :
    Option (Except Ending Updates × Inner) :=
  if offset < size then
    match (fs.readAt inode offset chunkSize).run (fs.decodeBlock libs (checksumBudget fs)) cache with
    | none => none
    | some (.error failure, cache) => some (.error (.unread failure), cache)
    | some (.ok chunk, cache) =>
      match updates.update alg chunk with
      | .error ending => some (.error ending, cache)
      | .ok updates =>
        if chunk = [] then some (.ok updates, cache)
        else updateAll inode size (offset + chunk.length) updates cache
  else some (.ok updates, cache)
termination_by size - offset
decreasing_by
  have some_ := List.length_pos_iff.mpr ‹¬ chunk = []›
  omega

/-- The body of the loop over the entries, after the test that skips all but regular files. -/
def checksumFile (entry : WalkEntry) (cache : Inner) : Option (Except Ending Bytes × Inner) :=
  match fs.fileSize entry.inode with
  | .error failure => some (.error (.unread failure), cache)
  | .ok size =>
    match withCapacity size with
    | .error ending => some (.error ending, cache)
    | .ok () =>
      match updateAll fs libs alg entry.inode size 0 .new cache with
      | none => none
      | some (.error ending, cache) => some (.error ending, cache)
      | some (.ok updates, cache) =>
        match updates.digestHex hashes alg with
        | .error ending => some (.error ending, cache)
        | .ok digestHex =>
          some (.ok (Lib.Utf8.encode digestHex ++ [0x20, 0x20] ++ stripSlash entry.path ++ [0x0A]),
            cache)

/-- The loop over the entries; `out` is what was printed so far. -/
def checksumEntries : List WalkEntry → Inner → Bytes → Option (Bytes × Ending)
  | [], _, out => some (out, .done)
  | entry :: rest, cache, out =>
    if entry.kind ≠ .regular ∨ entry.path = [] then checksumEntries rest cache out
    else
      match checksumFile fs libs hashes alg entry cache with
      | none => none
      | some (.error ending, _) => some (out, ending)
      | some (.ok line, cache) => checksumEntries rest cache (out ++ line)

def printChecksums (depth : Nat) : Option (Bytes × Ending) :=
  match fs.walk depth with
  | none => none
  | some (.error failure) => some ([], .unread failure)
  | some (.ok entries) => checksumEntries fs libs hashes alg entries .empty []

end Checksums

section Export

variable (fs : Filesystem)

def kindName : InodeKind → String
  | .directory => "directory"
  | .regular => "regular"
  | .symlink => "symlink"
  | .blockDevice => "block-device"
  | .charDevice => "char-device"
  | .fifo => "fifo"
  | .socket => "socket"
  | .unknown => "unknown"

/-- The path of a record. -/
def recordPath (entry : WalkEntry) : String :=
  if entry.path = [] then "/" else Lib.Utf8.lossyText entry.path

/-- What is written of a record before its target is looked up. -/
def recordHead (entry : WalkEntry) (stat : Stat) : String :=
  "\x7b" ++ member "inode" (toString stat.inode) ++
  "," ++ member "path" (jsonString (recordPath entry)) ++
  "," ++ member "kind" s!"\"{kindName stat.kind}\"" ++
  "," ++ member "mode" (toString stat.mode) ++
  "," ++ member "uid" (toString stat.uid) ++
  "," ++ member "gid" (toString stat.gid) ++
  "," ++ member "mtime" (toString stat.mtime) ++
  "," ++ member "atime" (toString stat.atime) ++
  "," ++ member "ctime" (toString stat.ctime) ++
  "," ++ member "size" (toString stat.size) ++
  "," ++ member "nlink" (toString stat.nlink)

/-- The target of a symlink, where one can be read. -/
def recordTarget (stat : Stat) : Result String :=
  if stat.kind = .symlink then
    match fs.readLink stat.inode with
    | .ok target => .ok ("," ++ member "target" (jsonString (Lib.Utf8.lossyText target)))
    | .error (.err _) => .ok ""
    | .error .panic => panicked
  else .ok ""

/-- The loop over the entries; `out` is what was written so far. -/
def exportEntries : List WalkEntry → String → String × Ending
  | [], out => (out, .done)
  | entry :: rest, out =>
    match fs.stat entry.inode with
    | .error failure => (out, .unread failure)
    | .ok stat =>
      match recordTarget fs stat with
      | .error failure => (out ++ recordHead entry stat, .unread failure)
      | .ok target => exportEntries rest (out ++ recordHead entry stat ++ target ++ "\x7d\n")

def exportMetadata (depth : Nat) : Option (String × Ending) :=
  match fs.walk depth with
  | none => none
  | some (.error failure) => some ("", .unread failure)
  | some (.ok entries) => some (exportEntries fs entries "")

end Export

section Summary

/-- The options that are set. -/
def optionNames (opts : Metadata.FsOptions) : List String :=
  (if opts.packedChunkTable then ["packed_chunk_table"] else []) ++
  (if opts.packedDirectories then ["packed_directories"] else []) ++
  (if opts.packedSharedFilesTable then ["packed_shared_files_table"] else []) ++
  (if opts.inodesHaveNlink then ["inodes_have_nlink"] else []) ++
  (if opts.hasBtime then ["has_btime"] else []) ++
  (if opts.mtimeOnly then ["mtime_only"] else [])

/-- The escaped names of a list, between brackets. -/
def nameList (names : List String) : String :=
  "[" ++ ",".intercalate (names.map jsonString) ++ "]"

/-- The loop over the options, a comma before all but the first. -/
def optionList (options : List String) : String :=
  options.zipIdx.foldl
    (fun out opt => (if 0 < opt.2 then out ++ "," else out) ++ s!"\"{opt.1}\"") "[" ++ "]"

/-- A member that is written where there is a value. -/
def optionalMember (name : String) (value : Option String) : String :=
  match value with
  | some value => member name value ++ ","
  | none => ""

def printJson (fs : Filesystem) : String :=
  "\x7b" ++
  member "block_size" (toString fs.blockSize) ++ "," ++
  member "inode_count" (toString fs.inodeCount) ++ "," ++
  member "total_fs_size" (toString fs.totalFsSize) ++ "," ++
  optionalMember "total_allocated_fs_size" (fs.totalAllocatedFsSize.map toString) ++
  member "time_resolution_sec" (toString (fs.options.timeResolutionSec.getD 1)) ++ "," ++
  member "features" (nameList fs.features) ++ "," ++
  member "categories" (nameList fs.categoryNames) ++ "," ++
  optionalMember "preferred_path_separator" (fs.preferredPathSeparator.map toString) ++
  member "dir_offset" (toString fs.offsets.dirOffset) ++ "," ++
  member "symlink_offset" (toString fs.offsets.symlinkOffset) ++ "," ++
  member "file_offset" (toString fs.offsets.fileOffset) ++ "," ++
  member "shared_file_offset" (toString fs.offsets.sharedFileOffset) ++ "," ++
  member "device_offset" (toString fs.offsets.deviceOffset) ++ "," ++
  member "special_offset" (toString fs.offsets.specialOffset) ++ "," ++
  member "timestamp_base" (toString fs.timestampBase) ++ "," ++
  member "options" (optionList (optionNames fs.options)) ++
  "\x7d\n"

end Summary

end Rdwarfs.Source.Dwarfsck
