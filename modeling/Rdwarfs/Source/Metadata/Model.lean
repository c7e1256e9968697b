import Rdwarfs.Source.Metadata.Frozen
import Rdwarfs.Source.Metadata.Fsst
import Rdwarfs.Source.Metadata.Tables

/-!
# Typed accessors

metadata/model.rs:22-53, 147-200, 235-1149, 1161-1166: the tables of a metadata blob, by Thrift
field id. Every accessor resolves its field's position and decodes what it was asked for.
-/
set_option linter.dupNamespace false

namespace Rdwarfs.Source.Metadata

open Lib.Machine

/-- Largest number of elements accepted for any list. -/
def defaultListCap : Nat := 64 * 1024 * 1024

namespace Ids

def chunks : Int16 := 1
def directories : Int16 := 2
def inodes : Int16 := 3
def chunkTable : Int16 := 4
def symlinkTable : Int16 := 6
def uids : Int16 := 7
def gids : Int16 := 8
def modes : Int16 := 9
def names : Int16 := 10
def symlinks : Int16 := 11
def timestampBase : Int16 := 12
def blockSize : Int16 := 15
def totalFsSize : Int16 := 16
def devices : Int16 := 17
def options : Int16 := 18
def dirEntries : Int16 := 19
def sharedFilesTable : Int16 := 20
def compactNames : Int16 := 24
def compactSymlinks : Int16 := 25
def preferredPathSeparator : Int16 := 26
def features : Int16 := 27
def categoryNames : Int16 := 28
def blockCategories : Int16 := 29
def holeBlockIndex : Int16 := 34
def largeHoleSize : Int16 := 35
def totalAllocatedFsSize : Int16 := 36

end Ids

structure Metadata where
  frozen : Frozen
  rootLayout : Layout
  deriving DecidableEq, Repr

/-- A struct field resolved once for a whole list. -/
structure Column where
  field : Option Field
  bits : UInt16
  deriving DecidableEq, Repr

namespace Column

def absent : Column := ⟨none, 0⟩

end Column

namespace Metadata

def decodeError (message : String) : Error := .decode "frozen2-model" message

def missingField (id : Int16) : Error := decodeError s!"required metadata field {id} missing"

/-- `u32::try_from` -/
def u32Of (value : Nat) (reason : Error) : Result UInt32 :=
  if value < 2 ^ 32 then .ok (UInt32.ofNat value) else fail reason

/-- Build a typed view over a schema and a blob; `arith` is the arithmetic its positions
are computed in. -/
def parse (arith : Arith) (schema : Schema) (bytes : Bytes) : Result Metadata := do
  let rootLayout ← schema.root
  return { frozen := { arith, schema, bytes }, rootLayout }

variable (m : Metadata)

def schema : Schema := m.frozen.schema

/-- Look up a root field: its layout id and position. -/
def field (id : Int16) : Result (Option (Field × Pos)) :=
  match m.rootLayout.field id with
  | none => .ok none
  | some field => do
    let pos ← m.frozen.child Pos.root field
    return some (field, pos)

section Scalars

/-- A root integral field; an error if it is absent. -/
def readInt (id : Int16) : Result Nat := do
  let view ← m.field id
  let (field, pos) ← okOr view (missingField id)
  let layout ← m.schema.layout field.layoutId
  m.frozen.readIntegral pos layout.bits

/-- An optional root integral field. -/
def readOptionalInt (id : Int16) : Result (Option Nat) := do
  match ← m.field id with
  | none => return none
  | some (field, pos) =>
    let layout ← m.schema.layout field.layoutId
    let opt ← m.frozen.readOptional pos layout
    if ¬ opt.present then return none
    else
      match opt.valueLayoutId with
      | none => return some 0
      | some id =>
        let valueLayout ← m.schema.layout id
        let value ← m.frozen.readIntegral opt.valuePos valueLayout.bits
        return some value

/-- An optional root field holding a 32-bit word. -/
def readOptionalU32 (id : Int16) (name : String) : Result (Option UInt32) := do
  match ← m.readOptionalInt id with
  | none => return none
  | some value =>
    let word ← u32Of value (outOfRange name value)
    return some word

def blockSize : Result UInt32 := do
  let v ← m.readInt Ids.blockSize
  u32Of v (outOfRange "block_size" v)

def totalFsSize : Result UInt64 := do
  let v ← m.readInt Ids.totalFsSize
  return UInt64.ofNat v

def timestampBase : Result UInt64 := do
  let v ← m.readInt Ids.timestampBase
  return UInt64.ofNat v

def preferredPathSeparator : Result (Option UInt32) :=
  m.readOptionalU32 Ids.preferredPathSeparator "preferred_path_separator"

def holeBlockIndex : Result (Option UInt32) :=
  m.readOptionalU32 Ids.holeBlockIndex "hole_block_index"

def totalAllocatedFsSize : Result (Option UInt64) := do
  let value ← m.readOptionalInt Ids.totalAllocatedFsSize
  return value.map UInt64.ofNat

end Scalars

section Lists

/-- The list layout and position of a root field, an optional around it unwrapped. -/
def resolveList (id : Int16) : Result (Option (Layout × Pos)) := do
  match ← m.field id with
  | none => return none
  | some (field, pos) =>
    let outer ← m.schema.layout field.layoutId
    match ← LayoutKind.of m.schema outer with
    | .optional valueLayoutId =>
      let opt ← m.frozen.readOptional pos outer
      if ¬ opt.present then return none
      else
        match valueLayoutId with
        | none => return none
        | some id =>
          let inner ← m.schema.layout id
          return some (inner, opt.valuePos)
    | _ => return some (outer, pos)

/-- A range whose count is within the cap. -/
def readCappedRange (listPos : Pos) (listLayout : Layout) (what : String) (cap : Nat) :
    Result RangeView := do
  let range ← m.frozen.readRange listPos listLayout
  refuseIf (range.count > cap) (.capExceeded what cap range.count)
  return range

/-- The integers of a range, once its kind is known. -/
def readIntItems (itemLayout : Layout) (range : RangeView) : Result (List Nat) :=
  if itemLayout.bits = 0 then .ok (List.replicate range.count 0)
  else
    collect (fun i => do
      let pos ← m.frozen.elementPos range i
      m.frozen.readIntegral pos itemLayout.bits) (List.range range.count)

/-- A root list of integers, bare or optional. A range without an item layout, or with one
of no width, holds zeros. -/
def readIntList (id : Int16) (cap : Nat) : Result (List Nat) := do
  match ← m.resolveList id with
  | none => return []
  | some (listLayout, listPos) =>
    let kind ← LayoutKind.of m.schema listLayout
    let range ← m.readCappedRange listPos listLayout "list-count" cap
    match kind with
    | .array itemLayoutId =>
      let itemLayout ← m.schema.layout itemLayoutId
      refuseIf (¬ itemLayout.fields.isEmpty) (decodeError s!"field {id} elements are not integral")
      m.readIntItems itemLayout range
    | .string => return List.replicate range.count 0
    | _ => fail (decodeError s!"field {id} is not a list (kind={kind.debug})")

def readU32List (id : Int16) : Result (List UInt32) := do
  let values ← m.readIntList id defaultListCap
  collect (fun v => u32Of v
    (decodeError s!"list element {v} does not fit in u32 (field {id})")) values

def readU64List (id : Int16) : Result (List UInt64) := do
  let values ← m.readIntList id defaultListCap
  return values.map UInt64.ofNat

def uids : Result (List UInt32) := m.readU32List Ids.uids
def gids : Result (List UInt32) := m.readU32List Ids.gids
def modes : Result (List UInt32) := m.readU32List Ids.modes
def chunkTableRaw : Result (List UInt32) := m.readU32List Ids.chunkTable
def symlinkTable : Result (List UInt32) := m.readU32List Ids.symlinkTable
def largeHoleSize : Result (List UInt64) := m.readU64List Ids.largeHoleSize
def devices : Result (List UInt64) := m.readU64List Ids.devices

def blockCategories : Result (List UInt32) := do
  let values ← m.readIntList Ids.blockCategories defaultListCap
  collect (fun v => u32Of v (outOfRange "block_categories" v)) values

end Lists

section Structs

/-- Resolve a struct field once: where it sits and how wide it is. -/
def column (layout : Layout) (fieldId : Int16) : Result Column :=
  match layout.field fieldId with
  | none => .ok Column.absent
  | some field => do
    let fieldLayout ← m.schema.layout field.layoutId
    return { field := some field, bits := fieldLayout.bits }

/-- Read a resolved field; an absent one reads as zero. -/
def readColumn (pos : Pos) (column : Column) : Result Nat :=
  match column.field with
  | none => .ok 0
  | some field => do
    let pos ← m.frozen.child pos field
    m.frozen.readIntegral pos column.bits

def readColumnU32 (pos : Pos) (column : Column) : Result UInt32 := do
  let v ← m.readColumn pos column
  u32Of v (decodeError s!"struct field value {v} overflows u32")

def readColumnU64 (pos : Pos) (column : Column) : Result UInt64 := do
  let v ← m.readColumn pos column
  return UInt64.ofNat v

/-- Decode every element of a root list of structs. `prepare` resolves the columns once
against the item layout. -/
def decodeStructList {γ τ : Type} (id : Int16) (prepare : Layout → Result γ)
    (decode : γ → Pos → Result τ) : Result (List τ) := do
  match ← m.resolveList id with
  | none => return []
  | some (listLayout, listPos) =>
    match ← LayoutKind.of m.schema listLayout with
    | .array itemLayoutId =>
      let range ← m.readCappedRange listPos listLayout "list-count" defaultListCap
      let itemLayout ← m.schema.layout itemLayoutId
      let columns ← prepare itemLayout
      collect (fun i => do
        let pos ← m.frozen.elementPos range i
        decode columns pos) (List.range range.count)
    | kind => fail (decodeError s!"field {id} is not an array (kind={kind.debug})")

structure ChunkColumns where
  block : Column
  offset : Column
  size : Column

def chunks : Result (List Chunk) :=
  m.decodeStructList Ids.chunks
    (fun layout => do
      let block ← m.column layout 1
      let offset ← m.column layout 2
      let size ← m.column layout 3
      return (⟨block, offset, size⟩ : ChunkColumns))
    (fun columns pos => do
      let block ← m.readColumnU32 pos columns.block
      let offset ← m.readColumnU32 pos columns.offset
      let size ← m.readColumnU32 pos columns.size
      return { block, offset, size })

structure DirEntryColumns where
  nameIndex : Column
  inodeNum : Column

def dirEntries : Result (List DirEntry) :=
  m.decodeStructList Ids.dirEntries
    (fun layout => do
      let nameIndex ← m.column layout 1
      let inodeNum ← m.column layout 2
      return (⟨nameIndex, inodeNum⟩ : DirEntryColumns))
    (fun columns pos => do
      let nameIndex ← m.readColumnU32 pos columns.nameIndex
      let inodeNum ← m.readColumnU32 pos columns.inodeNum
      return { nameIndex, inodeNum })

structure DirectoryColumns where
  parentEntry : Column
  firstEntry : Column
  selfEntry : Column

/-- The rows as stored; `first_entry` may be packed. -/
def directories : Result (List Directory) :=
  m.decodeStructList Ids.directories
    (fun layout => do
      let parentEntry ← m.column layout 1
      let firstEntry ← m.column layout 2
      let selfEntry ← m.column layout 3
      return (⟨parentEntry, firstEntry, selfEntry⟩ : DirectoryColumns))
    (fun columns pos => do
      let parentEntry ← m.readColumnU32 pos columns.parentEntry
      let firstEntry ← m.readColumnU32 pos columns.firstEntry
      let selfEntry ← m.readColumnU32 pos columns.selfEntry
      return { parentEntry, firstEntry, selfEntry })

structure InodeColumns where
  mode : Column
  owner : Column
  group : Column
  atime : Column
  mtime : Column
  ctime : Column
  btime : Column
  atimeSubsec : Column
  mtimeSubsec : Column
  ctimeSubsec : Column
  btimeSubsec : Column
  nlink : Column

def inodes : Result (List InodeData) :=
  m.decodeStructList Ids.inodes
    (fun layout => do
      let mode ← m.column layout 2
      let owner ← m.column layout 4
      let group ← m.column layout 5
      let atime ← m.column layout 6
      let mtime ← m.column layout 7
      let ctime ← m.column layout 8
      let btime ← m.column layout 9
      let atimeSubsec ← m.column layout 10
      let mtimeSubsec ← m.column layout 11
      let ctimeSubsec ← m.column layout 12
      let btimeSubsec ← m.column layout 13
      let nlink ← m.column layout 14
      return (⟨mode, owner, group, atime, mtime, ctime, btime, atimeSubsec, mtimeSubsec,
        ctimeSubsec, btimeSubsec, nlink⟩ : InodeColumns))
    (fun columns pos => do
      let modeIndex ← m.readColumnU32 pos columns.mode
      let ownerIndex ← m.readColumnU32 pos columns.owner
      let groupIndex ← m.readColumnU32 pos columns.group
      let atimeOffset ← m.readColumnU64 pos columns.atime
      let mtimeOffset ← m.readColumnU64 pos columns.mtime
      let ctimeOffset ← m.readColumnU64 pos columns.ctime
      let btimeOffset ← m.readColumnU64 pos columns.btime
      let atimeSubsec ← m.readColumnU64 pos columns.atimeSubsec
      let mtimeSubsec ← m.readColumnU64 pos columns.mtimeSubsec
      let ctimeSubsec ← m.readColumnU64 pos columns.ctimeSubsec
      let btimeSubsec ← m.readColumnU64 pos columns.btimeSubsec
      let nlinkMinusOne ← m.readColumnU32 pos columns.nlink
      return { modeIndex, ownerIndex, groupIndex, atimeOffset, mtimeOffset, ctimeOffset,
               btimeOffset, atimeSubsec, mtimeSubsec, ctimeSubsec, btimeSubsec, nlinkMinusOne })

end Structs

section StructFields

/-- A boolean field of a struct, false when absent. -/
def readStructBool (pos : Pos) (layout : Layout) (fieldId : Int16) : Result Bool :=
  match layout.field fieldId with
  | none => .ok false
  | some field => do
    let fieldLayout ← m.schema.layout field.layoutId
    let pos ← m.frozen.child pos field
    let value ← m.frozen.readIntegral pos fieldLayout.bits
    return value ≠ 0

/-- An optional 32-bit field of a struct; a bare integer counts as set. -/
def readStructOptionalU32 (pos : Pos) (layout : Layout) (fieldId : Int16) :
    Result (Option UInt32) :=
  match layout.field fieldId with
  | none => .ok none
  | some field => do
    let outer ← m.schema.layout field.layoutId
    let pos ← m.frozen.child pos field
    match ← LayoutKind.of m.schema outer with
    | .optional valueLayoutId =>
      let opt ← m.frozen.readOptional pos outer
      if ¬ opt.present then return none
      else
        match valueLayoutId with
        | none => return some 0
        | some id =>
          let valueLayout ← m.schema.layout id
          let v ← m.frozen.readIntegral opt.valuePos valueLayout.bits
          let word ← u32Of v (decodeError s!"optional u32 field {fieldId} value {v} overflows")
          return some word
    | _ =>
      let v ← m.frozen.readIntegral pos outer.bits
      let word ← u32Of v (decodeError s!"u32 field {fieldId} value {v} overflows")
      return some word

def readStructString (pos : Pos) (layout : Layout) (fieldId : Int16) : Result Bytes :=
  match layout.field fieldId with
  | none => .ok []
  | some field => do
    let fieldLayout ← m.schema.layout field.layoutId
    let pos ← m.frozen.child pos field
    m.frozen.readStringBytes pos fieldLayout

def readStructOptionalString (pos : Pos) (layout : Layout) (fieldId : Int16) :
    Result (Option Bytes) :=
  match layout.field fieldId with
  | none => .ok none
  | some field => do
    let outer ← m.schema.layout field.layoutId
    let pos ← m.frozen.child pos field
    match ← LayoutKind.of m.schema outer with
    | .optional valueLayoutId =>
      let opt ← m.frozen.readOptional pos outer
      if ¬ opt.present then return none
      else
        match valueLayoutId with
        | none => return some []
        | some id =>
          let valueLayout ← m.schema.layout id
          let bytes ← m.frozen.readStringBytes opt.valuePos valueLayout
          return some bytes
    | _ =>
      let bytes ← m.frozen.readStringBytes pos outer
      return some bytes

/-- `readIntList` for a field of a struct, without the check that the items are integral. -/
def readStructIntList (pos : Pos) (layout : Layout) (fieldId : Int16) (cap : Nat) :
    Result (List Nat) :=
  match layout.field fieldId with
  | none => .ok []
  | some field => do
    let listLayout ← m.schema.layout field.layoutId
    let kind ← LayoutKind.of m.schema listLayout
    let listPos ← m.frozen.child pos field
    let range ← m.readCappedRange listPos listLayout "list-count" cap
    match kind with
    | .array itemLayoutId =>
      let itemLayout ← m.schema.layout itemLayoutId
      m.readIntItems itemLayout range
    | .string => return List.replicate range.count 0
    | _ => fail (decodeError s!"struct field {fieldId} is not a list (kind={kind.debug})")

/-- The options struct, bare or optional; defaults when absent. -/
def fsOptions : Result FsOptions := do
  match ← m.field Ids.options with
  | none => return {}
  | some (field, pos) =>
    let outer ← m.schema.layout field.layoutId
    match ← LayoutKind.of m.schema outer with
    | .optional valueLayoutId =>
      let opt ← m.frozen.readOptional pos outer
      if ¬ opt.present then return {}
      else
        match valueLayoutId with
        | none => return {}
        | some id =>
          let structLayout ← m.schema.layout id
          readOptions structLayout opt.valuePos
    | _ => readOptions outer pos
where
  readOptions (layout : Layout) (pos : Pos) : Result FsOptions := do
    let mtimeOnly ← m.readStructBool pos layout 1
    let timeResolutionSec ← m.readStructOptionalU32 pos layout 2
    let packedChunkTable ← m.readStructBool pos layout 3
    let packedDirectories ← m.readStructBool pos layout 4
    let packedSharedFilesTable ← m.readStructBool pos layout 5
    let subsecondResolutionNsecMultiplier ← m.readStructOptionalU32 pos layout 6
    let hasBtime ← m.readStructBool pos layout 7
    let inodesHaveNlink ← m.readStructBool pos layout 8
    return { mtimeOnly, timeResolutionSec, packedChunkTable, packedDirectories,
             packedSharedFilesTable, subsecondResolutionNsecMultiplier, hasBtime,
             inodesHaveNlink }

/-- Shared-files table, already unpacked. -/
def sharedFilesTable : Result (List UInt32) := do
  let raw ← m.readU32List Ids.sharedFilesTable
  let options ← m.fsOptions
  if options.packedSharedFilesTable then expandSharedFiles 0 raw else return raw

end StructFields

section Strings

/-- An optional root list or set of strings. -/
def readOptionalStringList (id : Int16) (name : String) : Result (List String) := do
  match ← m.resolveList id with
  | none => return []
  | some (listLayout, listPos) =>
    match ← LayoutKind.of m.schema listLayout with
    | .array itemLayoutId =>
      let range ← m.readCappedRange listPos listLayout name defaultListCap
      let itemLayout ← m.schema.layout itemLayoutId
      collect (fun i => do
        let pos ← m.frozen.elementPos range i
        let bytes ← m.frozen.readStringBytes pos itemLayout
        okOr (Lib.Utf8.decode bytes) (decodeError s!"non-utf8 string in {name}"))
        (List.range range.count)
    | _ => fail (decodeError s!"{name} (id {id}) is not a range")

def features : Result (List String) := m.readOptionalStringList Ids.features "features"

def categoryNames : Result (List String) :=
  m.readOptionalStringList Ids.categoryNames "category_names"

/-- Append one string to a table. -/
def pushString (what : String) (table : StringTable) (bytes : Bytes) : Result StringTable := do
  let data := table.data ++ bytes
  let mark ← u32Of data.length (decodeError s!"{what} exceeds 4 GiB")
  return { data, offsets := table.offsets ++ [mark] }

/-- Adjacent pairs. -/
def windows : List UInt32 → List (UInt32 × UInt32)
  | first :: second :: rest => (first, second) :: windows (second :: rest)
  | _ => []

/-- The symbols that the strings of a table are compressed with, if any. -/
def parseSymbols (symtab : Option Bytes) : Result (Option SymTable) :=
  match symtab with
  | none => .ok none
  | some bytes => do
    let (table, _) ← SymTable.parse bytes
    return some table

/-- Decompress the slice of one string, which needs nothing without symbols. -/
def decompress (table : Option SymTable) (window : Bytes) : Result Bytes :=
  match table with
  | none => .ok window
  | some table => table.decode window

/-- Slice the buffer of a string table into its elements, a packed index stored as deltas
without the leading zero. -/
def decodeStringTable (buffer : Bytes) (symtab : Option Bytes) (index : List UInt32)
    (packed : Bool) : Result StringTable :=
  let offsets := if packed then 0 :: inclusivePrefixSumU32 index else index
  if offsets.length < 2 then .ok StringTable.empty
  else do
    let table ← parseSymbols symtab
    (windows offsets).foldlM (fun out span => do
      let start := span.1.toNat
      let stop := span.2.toNat
      refuseIf (stop < start ∨ stop > buffer.length) (decodeError
        s!"string_table slice {start}..{stop} out of buffer ({buffer.length} bytes)")
      let window ← slice buffer start stop
      let bytes ← decompress table window
      pushString "string table" out bytes) { data := [], offsets := [0] }

/-- An optional compact string table. -/
def readStringTable (id : Int16) : Result (Option StringTable) := do
  match ← m.field id with
  | none => return none
  | some (field, pos) =>
    let outer ← m.schema.layout field.layoutId
    match ← LayoutKind.of m.schema outer with
    | .optional valueLayoutId =>
      let opt ← m.frozen.readOptional pos outer
      if ¬ opt.present then return none
      else
        match valueLayoutId with
        | none => return some StringTable.empty
        | some valueId =>
          let layout ← m.schema.layout valueId
          let buffer ← m.readStructString opt.valuePos layout 1
          let symtab ← m.readStructOptionalString opt.valuePos layout 2
          let rawIndex ← m.readStructIntList opt.valuePos layout 3 defaultListCap
          let packed ← m.readStructBool opt.valuePos layout 4
          let index ← collect (fun v => u32Of v
            (decodeError s!"string_table index value {v} overflows u32")) rawIndex
          let table ← decodeStringTable buffer symtab index packed
          return some table
    | _ => fail (decodeError s!"field {id} is not Optional<string_table>")

/-- A plain root list of strings. -/
def readPlainStringList (id : Int16) : Result StringTable := do
  match ← m.resolveList id with
  | none => return StringTable.empty
  | some (listLayout, listPos) =>
    match ← LayoutKind.of m.schema listLayout with
    | .array itemLayoutId =>
      let range ← m.readCappedRange listPos listLayout "list-count" defaultListCap
      let itemLayout ← m.schema.layout itemLayoutId
      (List.range range.count).foldlM (fun out i => do
        let pos ← m.frozen.elementPos range i
        let bytes ← m.frozen.readStringBytes pos itemLayout
        pushString "string list" out bytes) { data := [], offsets := [0] }
    | _ => fail (decodeError s!"field {id} is not an array of strings")

/-- The compact table when there is one, else the plain list. -/
def readStrings (compact plain : Int16) : Result StringTable := do
  match ← m.readStringTable compact with
  | some table => return table
  | none => m.readPlainStringList plain

def names : Result StringTable := m.readStrings Ids.compactNames Ids.names

def symlinks : Result StringTable := m.readStrings Ids.compactSymlinks Ids.symlinks

end Strings

end Metadata

end Rdwarfs.Source.Metadata
