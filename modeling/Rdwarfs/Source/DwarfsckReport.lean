import Rdwarfs.Source.Dwarfsck
import Rdwarfs.Source.Format.History
import Rdwarfs.Source.Format.Verify
import Rdwarfs.Source.Fs.Open
import Rdwarfs.Source.Opening

/-!
# The `dwarfsck` report

bin/dwarfsck.rs:25-106, 126-528: the summary of an image, of its history and of its metadata,
and the run of the command around them. What goes to stdout is text or bytes, what goes to stderr a
list of notes. Of a report that fails or panics midway, the lines printed before are not modelled,
nor are errors of stdout.
-/
namespace Rdwarfs.Source.Dwarfsck

open Lib.Machine Format Source.Fs Source.Metadata Source.Codecs

/-- Lines on stderr, less the name of the command. -/
inductive Note where
  | undecodedHistory
  | unparsedHistory
  | metadataUnavailable (reason : Error)
  deriving DecidableEq, Repr

/-- `.ok()`: an error value is dropped, a panic is not. -/
def given {α : Type} (run : Result α) : Result (Option α) := do
  match ← attempt run with
  | .ok value => return some value
  | .error (_ : Error) => return none

section Summary

/-- The accumulators of `print_summary`. -/
structure Sizes where
  blockCount : Nat
  block : Nat
  metadata : Nat
  schema : Nat
  history : Nat
  unknown : List (UInt16 × Nat)
  deriving DecidableEq, Repr

def Sizes.new : Sizes := ⟨0, 0, 0, 0, 0, []⟩

variable (build : Build)

/-- One total for each unknown type, in the order they are met. -/
def addUnknown (value : UInt16) (len : Nat) : List (UInt16 × Nat) → Result (List (UInt16 × Nat))
  | [] => .ok [(value, len)]
  | (v, total) :: rest =>
    if v = value then do
      let total ← (Arith.machine build).add total len
      return (v, total) :: rest
    else do
      let rest ← addUnknown value len rest
      return (v, total) :: rest

/-- The body of the loop over the sections; each `+=` is plain. -/
def Sizes.count (sizes : Sizes) (record : SectionRecord) : Result Sizes :=
  let len := record.header.payloadLen.toNat
  match record.header.sectionType with
  | .block => do
    let blockCount ← (Arith.machine build).add sizes.blockCount 1
    let block ← (Arith.machine build).add sizes.block len
    return { sizes with blockCount, block }
  | .metadataV2 => do
    let metadata ← (Arith.machine build).add sizes.metadata len
    return { sizes with metadata }
  | .metadataV2Schema => do
    let schema ← (Arith.machine build).add sizes.schema len
    return { sizes with schema }
  | .history => do
    let history ← (Arith.machine build).add sizes.history len
    return { sizes with history }
  | .unknown value => do
    let unknown ← addUnknown build value len sizes.unknown
    return { sizes with unknown }
  | .sectionIndex => .ok sizes

/-- The `Debug` rendering. -/
def compressionDebug : Compression → String
  | .none => "None"
  | .lzma => "Lzma"
  | .zstd => "Zstd"
  | .lz4 => "Lz4"
  | .lz4Hc => "Lz4Hc"
  | .brotli => "Brotli"
  | .flac => "Flac"
  | .ricepp => "Ricepp"
  | .unknown value => s!"Unknown({value})"

/-- Where a section ends, and its length. -/
def sectionEnd (record : SectionRecord) : Result (Nat × Nat) := do
  let payload ← (Arith.machine build).add record.fileOffset headerLen
  let payloadEnd ← (Arith.machine build).add payload record.header.payloadLen.toNat
  let len ← (Arith.machine build).add headerLen record.header.payloadLen.toNat
  return (payloadEnd, len)

def sectionLine (i : Nat) (record : SectionRecord) : Result String := do
  let (payloadEnd, len) ← sectionEnd build record
  let header := record.header
  return s!"  [{i}] type={header.sectionType.debug} " ++
    s!"compression={compressionDebug header.compression} number={header.number} " ++
    s!"offset={record.fileOffset} len={len} end={payloadEnd}\n"

/-- Decoded size of the first section of a type, when it decodes. -/
def decodedLen (libs : Libraries) (image : Image) (kind : SectionType) : Result (Option Nat) :=
  match image.findSection kind with
  | none => .ok none
  | some record => do
    let decoded ← given (image.decompressSection libs record (1 <<< 30))
    return decoded.map List.length

/-- A line that is printed where there is a value. -/
def optionalLine (front : String) (value : Option Nat) : String :=
  match value with
  | some n => s!"{front}{n} bytes\n"
  | none => ""

def printSummary (libs : Libraries) (image : Image) (detail : Nat) : Result String := do
  let sizes ← image.sections.foldlM (Sizes.count build) .new
  let metadataLen ← decodedLen libs image .metadataV2
  let schemaLen ← decodedLen libs image .metadataV2Schema
  let lines ← if detail ≥ 2 then
      collect (fun row : SectionRecord × Nat => sectionLine build row.2 row.1) image.sections.zipIdx
    else .ok []
  return (match image.sections.head? with
      | some first => s!"DwarFS version: {first.header.major}.{first.header.minor}\n"
      | none => "") ++
    s!"DwarFS image: {image.source.len} bytes\n" ++
    s!"Sections: {image.sections.length}\n" ++
    s!"Block count: {sizes.blockCount}\n" ++
    s!"Compressed block size: {sizes.block} bytes\n" ++
    s!"Compressed metadata size: {sizes.metadata} bytes\n" ++
    optionalLine "Uncompressed metadata size: " metadataLen ++
    s!"Compressed schema size: {sizes.schema} bytes\n" ++
    optionalLine "Uncompressed schema size: " schemaLen ++
    (if sizes.history > 0 then s!"Compressed history size: {sizes.history} bytes\n" else "") ++
    String.join (sizes.unknown.map fun row => s!"Unknown section type {row.1}: {row.2} bytes\n") ++
    (if image.baseOffset > 0 then s!"Header prefix: {image.baseOffset} bytes\n" else "") ++
    String.join lines ++
    (if image.sectionIndex.isSome then "Section index: present\n" else "")

end Summary

section History

def historyEntry (entry : HistoryEntry) : String :=
  let v := entry.version
  s!"History: {v.major}.{v.minor}.{v.patch} on {entry.systemId} built with {entry.compilerId}\n" ++
    (match entry.timestamp with
      | some ts => s!"  created on: {ts}\n"
      | none => "") ++
    match entry.arguments with
      | some args => "  args: " ++ " ".intercalate args ++ "\n"
      | none => ""

/-- The body of the loop over the history sections. -/
def historySection (libs : Libraries) (image : Image) (record : SectionRecord) :
    Result (String × List Note) := do
  match ← given (image.decompressSection libs record (1 <<< 24)) with
  | none => return ("", [.undecodedHistory])
  | some payload =>
    match ← given (History.parse payload) with
    | none => return ("", [.unparsedHistory])
    | some entries => return (String.join (entries.map historyEntry), [])

def printHistory (libs : Libraries) (image : Image) : Result (String × List Note) := do
  let sections ← collect (historySection libs image)
    (image.sections.filter (·.header.sectionType == .history))
  return (String.join (sections.map (·.1)), sections.flatMap (·.2))

end History

section MetadataTables

/-- Root fields whose elements have a fixed width. -/
def metadataTables : List (Int16 × String) := [
  (1, "chunks"), (2, "directories"), (3, "inodes"), (4, "chunk_table"), (6, "symlink_table"),
  (7, "uids"), (8, "gids"), (9, "modes"), (17, "devices"), (19, "dir_entries"),
  (20, "shared_files_table"), (29, "block_categories"), (35, "large_hole_size")]

variable (m : Metadata)

/-- Count and size of an array; the product is plain. -/
def arraySize (layout : Layout) (pos : Pos) : Result (Option (Nat × Nat)) := do
  match ← given (LayoutKind.of m.schema layout) with
  | some (.array itemLayoutId) =>
    let range ← given (m.frozen.readRange pos layout)
    let item ← given (m.schema.layout itemLayoutId)
    match range, item with
    | some range, some item =>
      if range.count = 0 then return none
      else
        let bits ← m.frozen.arith.mul range.count (max item.bits.toNat 1)
        return some (range.count, (bits + 7) / 8)
    | _, _ => return none
  | _ => return none

/-- The body of the loop over the tables: an optional is unwrapped, and what cannot be read is
left out. -/
def tableSize (id : Int16) : Result (Option (Nat × Nat)) :=
  match m.rootLayout.field id with
  | none => .ok none
  | some field => do
    match ← given (m.schema.layout field.layoutId) with
    | none => return none
    | some layout =>
      let pos ← m.frozen.child Pos.root field
      match ← given (LayoutKind.of m.schema layout) with
      | some (.optional valueLayoutId) =>
        match ← given (m.frozen.readOptional pos layout) with
        | none => return none
        | some opt =>
          match opt.present, valueLayoutId.bind m.schema.layouts.get with
          | true, some inner => arraySize m inner opt.valuePos
          | _, _ => return none
      | _ => arraySize m layout pos

/-- `{:<width$}` and `{:>width$}` of a text in ASCII. -/
def padRight (width : Nat) (text : String) : String :=
  String.ofList (text.toList ++ List.replicate (width - text.length) ' ')

def padLeft (width : Nat) (text : String) : String :=
  String.ofList (List.replicate (width - text.length) ' ' ++ text.toList)

def tableLine (name : String) (size : Nat × Nat) : String :=
  s!"  {padRight 20 name} {padLeft 10 (toString size.1)} entries " ++
    s!"{padLeft 10 (toString size.2)} bytes\n"

/-- The schema and the metadata of an image, where both decode and parse. -/
def reportMetadata (libs : Libraries) (build : Build) (image : Image) : Result (Option Metadata) :=
  match image.findSection .metadataV2Schema, image.findSection .metadataV2 with
  | some schemaRec, some metaRec => do
    let schemaBytes ← given (image.decompressSection libs schemaRec (1 <<< 24))
    let metaBytes ← given (image.decompressSection libs metaRec (1 <<< 30))
    match schemaBytes, metaBytes with
    | some schemaBytes, some metaBytes =>
      match ← given (Schema.parse schemaBytes) with
      | none => return none
      | some schema => given (Metadata.parse (.machine build) schema metaBytes)
    | _, _ => return none
  | _, _ => .ok none

def printTableSizes (libs : Libraries) (build : Build) (image : Image) : Result String := do
  match ← reportMetadata libs build image with
  | none => return ""
  | some m =>
    let lines ← collect (fun table : Int16 × String => do
      let size ← tableSize m table.1
      return size.elim "" (tableLine table.2)) metadataTables
    return "Metadata tables:\n" ++ String.join lines

end MetadataTables

section MetadataSummary

/-- The options that are set, in the order of the summary. -/
def optionFlags (options : FsOptions) : List String :=
  (if options.mtimeOnly then ["mtime_only"] else []) ++
  (if options.packedChunkTable then ["packed_chunk_table"] else []) ++
  (if options.packedDirectories then ["packed_directories"] else []) ++
  (if options.packedSharedFilesTable then ["packed_shared_files_table"] else []) ++
  (if options.hasBtime then ["has_btime"] else []) ++
  (if options.inodesHaveNlink then ["inodes_have_nlink"] else [])

/-- A line with a list of names, unless there are none. -/
def namesLine (front : String) (names : List String) : String :=
  if names = [] then "" else front ++ ", ".intercalate names ++ "\n"

/-- `char::from_u32` -/
def charFromU32 (value : UInt32) : Option Char :=
  if valid : value.isValidChar then some ⟨value, valid⟩ else none

def printMetadataSummary (libs : Libraries) (build : Build) (fs : Filesystem) (detail : Nat) :
    Result String := do
  let summary :=
    s!"Block size: {fs.blockSize} bytes\n" ++
    namesLine "Block categories: " fs.categoryNames ++
    s!"Inode count: {fs.inodeCount}\n" ++
    s!"Original filesystem size: {fs.totalFsSize} bytes\n" ++
    optionalLine "Original allocated size: " (fs.totalAllocatedFsSize.map UInt64.toNat) ++
    namesLine "Features: " fs.features ++
    namesLine "Options: " (optionFlags fs.options) ++
    s!"Time resolution: {fs.options.timeResolutionSec.getD 1} seconds\n" ++
    match fs.preferredPathSeparator.bind charFromU32 with
      | some c => s!"Preferred path separator: {c}\n"
      | none => ""
  if detail < 3 then return summary
  else
    let tables ← printTableSizes libs build fs.image
    let offsets := fs.offsets
    return summary ++ tables ++
      s!"Inode offsets: dir={offsets.dirOffset} symlink={offsets.symlinkOffset} " ++
      s!"file={offsets.fileOffset} shared={offsets.sharedFileOffset} " ++
      s!"device={offsets.deviceOffset} special={offsets.specialOffset}\n"

end MetadataSummary

section Run

/-- The flags that a run looks at. -/
structure Cli where
  detail : String
  quiet : Bool
  verbose : Bool
  imageOffset : String
  imageSize : Option Nat
  printHeader : Bool
  list : Bool
  checksum : Option String
  checkIntegrity : Bool
  noCheck : Bool
  json : Bool
  exportMetadata : Option String
  deriving DecidableEq, Repr

/-- What a run leaves behind: bytes on stdout, the file of `--export-metadata`, notes on stderr. -/
structure Output where
  stdout : Bytes
  exported : Option String
  notes : List Note
  deriving DecidableEq, Repr

def Output.nothing : Output := ⟨[], none, []⟩

def Refusal.ending : Refusal → Ending
  | .usage message => .usage message
  | .failed failure => .unread failure

def parseDetail (value : String) : Nat :=
  match (parseU64 value.toList).filter (· < 2 ^ 32) with
  | some n => min n 7
  | none => 3

def Cli.detailLevel (cli : Cli) : Nat :=
  let detail := if cli.quiet then 0 else parseDetail cli.detail
  if cli.verbose then detail + 1 else detail

/-- The lines of `--list`. -/
def listLines (entries : List WalkEntry) : Bytes :=
  (entries.filter (·.path ≠ [])).flatMap fun entry => stripSlash entry.path ++ [0x0A]

variable (libs : Libraries) (hashes : Hashes) (build : Build)

/-- `--list` -/
def runList (fs : Filesystem) (depth : Nat) : Option (Output × Ending) :=
  match fs.walk depth with
  | none => none
  | some (.error failure) => some (.nothing, .unread failure)
  | some (.ok entries) => some ({ Output.nothing with stdout := listLines entries }, .done)

/-- `--export-metadata`: to stdout for `-`. -/
def runExport (fs : Filesystem) (path : String) (depth : Nat) : Option (Output × Ending) :=
  match exportMetadata fs depth with
  | none => none
  | some (text, ending) =>
    if path = "-" then some ({ Output.nothing with stdout := Lib.Utf8.encode text }, ending)
    else some ({ Output.nothing with exported := some text }, ending)

/-- What is left of a run when a filesystem is needed and does not open. -/
def withFilesystem (image : Image) (next : Filesystem → Option (Output × Ending)) :
    Option (Output × Ending) :=
  match Filesystem.openImage libs build image with
  | .error failure => some (.nothing, .unread failure)
  | .ok fs => next fs

/-- The report, from the summary on. -/
def runSummary (cli : Cli) (image : Image) : Output × Ending :=
  let detail := cli.detailLevel
  if detail = 0 then (.nothing, .done)
  else
    match printSummary build libs image detail with
    | .error failure => (.nothing, .unread failure)
    | .ok summary =>
      match printHistory libs image with
      | .error failure => (⟨Lib.Utf8.encode summary, none, []⟩, .unread failure)
      | .ok (history, notes) =>
        let out := Lib.Utf8.encode (summary ++ history)
        match Filesystem.openImage libs build image with
        | .error (.err reason) => (⟨out, none, notes ++ [.metadataUnavailable reason]⟩, .done)
        | .error .panic => (⟨out, none, notes⟩, .unread .panic)
        | .ok fs =>
          match printMetadataSummary libs build fs detail with
          | .error failure => (⟨out, none, notes⟩, .unread failure)
          | .ok metadata => (⟨out ++ Lib.Utf8.encode metadata, none, notes⟩, .done)

/-- `run` behind the integrity check. -/
def runReport (cli : Cli) (image : Image) (depth : Nat) : Option (Output × Ending) :=
  if cli.json then
    withFilesystem libs build image fun fs =>
      some ({ Output.nothing with stdout := Lib.Utf8.encode (printJson fs) }, .done)
  else
    match cli.exportMetadata, cli.checksum with
    | some path, _ => withFilesystem libs build image fun fs => runExport fs path depth
    | none, some alg =>
      withFilesystem libs build image fun fs =>
        (printChecksums fs libs hashes alg depth).map fun printed =>
          ({ Output.nothing with stdout := printed.1 }, printed.2)
    | none, none =>
      if cli.list then withFilesystem libs build image fun fs => runList fs depth
      else some (runSummary libs build cli image)

/-- `--print-header` -/
def runHeader (image : Image) : Output × Ending :=
  if image.baseOffset > 0 then
    match image.readRange 0 image.baseOffset with
    | .error failure => (.nothing, .unread failure)
    | .ok bytes => ({ Output.nothing with stdout := bytes }, .done)
  else (.nothing, .done)

/-- `run`; `check deep` is the `verify_sections` of the build. -/
def run (mmap : Bool) (check : Bool → Image → Result Unit) (cli : Cli) (file : Bytes)
    (depth : Nat) : Option (Output × Ending) :=
  match openImage build mmap file cli.imageOffset cli.imageSize with
  | .error refusal => some (.nothing, Refusal.ending refusal)
  | .ok image =>
    if cli.printHeader then some (runHeader image)
    else if cli.noCheck then runReport libs hashes build cli image depth
    else
      match check cli.checkIntegrity image with
      | .error failure => some (.nothing, .unread failure)
      | .ok () => runReport libs hashes build cli image depth

end Run

end Rdwarfs.Source.Dwarfsck
