import Rdwarfs.Guarantees.CodecOutcomes
import Rdwarfs.Guarantees.ListCaps
import Rdwarfs.Guarantees.OpenedFilesystem
import Rdwarfs.Guarantees.PackedTables
import Rdwarfs.Source.DwarfsckReport

/-!
# The tables of a report

`dwarfsck` measures the tables of an image without decoding them, by a reading of its own of the
schema and of the ranges. On an image that opens it comes to the tables the filesystem keeps, and
their caps keep its plain product inside a word.
-/
namespace Rdwarfs.Guarantees.TableReports

open Lib.Machine Source Source.Format Source.Metadata Source.Fs Source.Codecs Source.Dwarfsck
open Metadata ListCaps OpenedFilesystem CodecOutcomes

/-- The layout of one element, where the schema has it. -/
def itemLayout (m : Metadata) (id : Int16) : Option Layout :=
  match m.resolveList id with
  | .ok (some place) =>
    match LayoutKind.of m.schema place.1 with
    | .ok (.array item) => m.schema.layouts.get item
    | _ => none
  | _ => none

/-- The row of a table of `count` elements: none for an empty one. -/
def rowOf (m : Metadata) (id : Int16) (count : Nat) : Option (Nat × Nat) :=
  match itemLayout m id with
  | none => none
  | some item =>
    if count = 0 then none else some (count, (count * max item.bits.toNat 1 + 7) / 8)

section Rows

variable {m : Metadata} {id : Int16}

theorem given_ok {α : Type} (value : α) : given (.ok value) = .ok (some value) := rfl

theorem layout_eq_ok {id : Int16} {layout : Layout} :
    m.schema.layout id = .ok layout ↔ m.schema.layouts.get id = some layout :=
  okOr_eq_ok

/-- The report unwraps a root field as the accessors do. -/
theorem tableSize_resolved {found : Option (Layout × Pos)} (resolved : m.resolveList id = .ok found) :
    tableSize m id = match found with
      | none => .ok none
      | some place => arraySize m place.1 place.2 := by
  obtain ⟨view, viewed, resolved⟩ := bind_eq_ok.mp resolved
  unfold Metadata.field at viewed
  unfold tableSize
  cases named : m.rootLayout.field id with
  | none =>
    rw [named] at viewed
    cases viewed
    cases resolved
    rfl
  | some field =>
    rw [named] at viewed
    obtain ⟨pos, placed, same⟩ := bind_eq_ok.mp viewed
    cases same
    obtain ⟨outer, laid, resolved⟩ := bind_eq_ok.mp resolved
    obtain ⟨kind, classified, resolved⟩ := bind_eq_ok.mp resolved
    simp only [laid, given_ok, placed, classified, ok_bind]
    cases kind with
    | optional value =>
      obtain ⟨opt, read, resolved⟩ := bind_eq_ok.mp resolved
      simp only [read, given_ok, ok_bind]
      cases present : opt.present with
      | false =>
        rw [if_pos (by simp [present])] at resolved
        cases resolved
        rfl
      | true =>
        rw [if_neg (by simp [present])] at resolved
        cases value with
        | none =>
          cases resolved
          rfl
        | some inner =>
          obtain ⟨layout, found, resolved⟩ := bind_eq_ok.mp resolved
          cases resolved
          rw [Option.bind_some, layout_eq_ok.mp found]
    | _ =>
      cases resolved
      rfl

theorem readCappedRange_read {pos : Pos} {layout : Layout} {what : String} {cap : Nat}
    {range : RangeView} (read : m.readCappedRange pos layout what cap = .ok range) :
    m.frozen.readRange pos layout = .ok range := by
  simp only [Metadata.readCappedRange, bind_eq_ok, pure_eq_ok, Except.ok.injEq] at read
  obtain ⟨_, found, _, _, rfl⟩ := read
  exact found

section Resolved

variable {layout : Layout} {pos : Pos} (resolved : m.resolveList id = .ok (some (layout, pos)))

include resolved

theorem rowOf_other (count : Nat) {kind : LayoutKind}
    (classified : LayoutKind.of m.schema layout = .ok kind) (other : ∀ item, kind ≠ .array item) :
    rowOf m id count = none ∧ tableSize m id = .ok none := by
  constructor
  · rw [rowOf, itemLayout, resolved]
    simp only [classified]
    cases kind with
    | array item => exact absurd rfl (other item)
    | _ => rfl
  · rw [tableSize_resolved resolved]
    simp only [arraySize, classified, given_ok, ok_bind]
    cases kind with
    | array item => exact absurd rfl (other item)
    | _ => rfl

/-- Within the cap the product fits, whatever the width. -/
theorem tableSize_array {itemId : Int16} {item : Layout} {range : RangeView}
    (classified : LayoutKind.of m.schema layout = .ok (.array itemId))
    (read : m.frozen.readRange pos layout = .ok range)
    (laid : m.schema.layout itemId = .ok item) (few : range.count ≤ defaultListCap) :
    tableSize m id = .ok (rowOf m id range.count) := by
  have row : rowOf m id range.count = if range.count = 0 then none else
      some (range.count, (range.count * max item.bits.toNat 1 + 7) / 8) := by
    rw [rowOf, itemLayout, resolved]
    simp only [classified, layout_eq_ok.mp laid]
  have fits : range.count * max item.bits.toNat 1 < wordLimit := by
    have narrow : max item.bits.toNat 1 ≤ 65535 := by
      have bound := item.bits.toNat_lt
      omega
    calc range.count * max item.bits.toNat 1
      _ ≤ defaultListCap * 65535 := Nat.mul_le_mul few narrow
      _ < wordLimit := by decide
  rw [tableSize_resolved resolved, row]
  simp only [arraySize, classified, read, laid, given_ok, ok_bind]
  by_cases empty : range.count = 0
  · rw [if_pos empty, if_pos empty]
    rfl
  · rw [if_neg empty, if_neg empty, Arith.mul_of_lt _ fits]
    rfl

end Resolved

theorem rowOf_absent (count : Nat) (resolved : m.resolveList id = .ok none) :
    rowOf m id count = none := by
  rw [rowOf, itemLayout, resolved]

theorem readIntList_row {values : List Nat} (read : m.readIntList id defaultListCap = .ok values) :
    tableSize m id = .ok (rowOf m id values.length) := by
  obtain ⟨found, resolved, read⟩ := bind_eq_ok.mp read
  cases found with
  | none => rw [tableSize_resolved resolved, rowOf_absent _ resolved]
  | some place =>
    obtain ⟨kind, classified, read⟩ := bind_eq_ok.mp read
    obtain ⟨range, capped, read⟩ := bind_eq_ok.mp read
    have few := readCappedRange_count capped
    cases kind with
    | array item =>
      obtain ⟨layout, laid, read⟩ := bind_eq_ok.mp read
      obtain ⟨_, _, read⟩ := bind_eq_ok.mp read
      rw [readIntItems_length read]
      exact tableSize_array resolved classified (readCappedRange_read capped) laid few
    | string =>
      obtain ⟨row, size⟩ := rowOf_other resolved values.length classified
        fun _ impossible => nomatch impossible
      rw [row, size]
    | _ => cases read

theorem readU32List_row {words : List UInt32} (read : m.readU32List id = .ok words) :
    tableSize m id = .ok (rowOf m id words.length) := by
  obtain ⟨values, listed, narrowed⟩ := bind_eq_ok.mp read
  rw [collect_length narrowed]
  exact readIntList_row listed

theorem readU64List_row {words : List UInt64} (read : m.readU64List id = .ok words) :
    tableSize m id = .ok (rowOf m id words.length) := by
  obtain ⟨values, listed, widened⟩ := bind_eq_ok.mp read
  cases widened
  rw [List.length_map]
  exact readIntList_row listed

theorem blockCategories_row {words : List UInt32} (read : m.blockCategories = .ok words) :
    tableSize m Ids.blockCategories = .ok (rowOf m Ids.blockCategories words.length) := by
  obtain ⟨values, listed, narrowed⟩ := bind_eq_ok.mp read
  rw [collect_length narrowed]
  exact readIntList_row listed

theorem decodeStructList_row {γ τ : Type} {prepare : Layout → Result γ}
    {decode : γ → Pos → Result τ} {rows : List τ}
    (read : m.decodeStructList id prepare decode = .ok rows) :
    tableSize m id = .ok (rowOf m id rows.length) := by
  obtain ⟨found, resolved, read⟩ := bind_eq_ok.mp read
  cases found with
  | none => rw [tableSize_resolved resolved, rowOf_absent _ resolved]
  | some place =>
    obtain ⟨kind, classified, read⟩ := bind_eq_ok.mp read
    cases kind with
    | array item =>
      obtain ⟨range, capped, read⟩ := bind_eq_ok.mp read
      obtain ⟨layout, laid, read⟩ := bind_eq_ok.mp read
      obtain ⟨columns, _, read⟩ := bind_eq_ok.mp read
      rw [collect_range_length read]
      exact tableSize_array resolved classified (readCappedRange_read capped) laid
        (readCappedRange_count capped)
    | _ => cases read

end Rows

section Lengths

theorem unpackFirstEntriesFrom_length (acc : UInt32) (dirs : List Directory) :
    (unpackFirstEntriesFrom acc dirs).length = dirs.length := by
  induction dirs generalizing acc with
  | nil => rfl
  | cons dir rest ih => rw [unpackFirstEntriesFrom, List.length_cons, List.length_cons, ih]

theorem rebuildDirectoryLinks_length (dirs : List Directory) (dirEntries : List DirEntry) :
    (rebuildDirectoryLinks dirs dirEntries).length = dirs.length := by
  cases size : dirs.length with
  | zero => rw [rebuildDirectoryLinks, size, size]
  | succ dirCount =>
    rw [PackedTables.rebuildDirectoryLinks_eq size, Lib.Writes.writeAll_length,
      Lib.Writes.writeAll_length, size]

theorem expanded_ge (packed : List UInt32) : 2 * packed.length ≤ expanded packed := by
  induction packed with
  | nil => exact Nat.zero_le _
  | cons delta rest ih =>
    simp only [expanded, List.map_cons, List.sum_cons, List.length_cons] at ih ⊢
    omega

end Lengths

section Report

/-- The decoder of a codec says the same under a wider cap as under one it fits. -/
def Widens (libs : Libraries) (codec : Compression) : Prop := ∀ src cap cap' out, cap ≤ cap' →
  libs.decode codec src cap = .ok out → libs.decode codec src cap' = .ok out

/-- So does that of the schema and that of the metadata of an image. -/
def MoreRoom (libs : Libraries) (image : Image) : Prop :=
  ∀ record, image.findSection .metadataV2Schema = some record ∨
    image.findSection .metadataV2 = some record → Widens libs record.header.compression

/-- Every codec of a build has more room under a wider cap, but for liblzma. -/
theorem moreRoom_libraries {decoders : Decoders} {features : Features} {base : Libraries}
    {image : Image}
    (stops : ∀ record, image.findSection .metadataV2Schema = some record ∨
      image.findSection .metadataV2 = some record →
      features.lzmaNative = false ∨ record.header.compression ≠ .lzma) :
    MoreRoom (decoders.libraries features base) image :=
  fun record found _ _ _ _ le decoded => decode_wider le (stops record found) decoded

/-- The tables a filesystem keeps, with their lengths. -/
def tableLengths (fs : Filesystem) : List (Int16 × Nat) := [
  (Ids.chunks, fs.chunks.length), (Ids.directories, fs.directories.length),
  (Ids.inodes, fs.inodes.length), (Ids.chunkTable, fs.chunkTable.length),
  (Ids.symlinkTable, fs.symlinkTable.length), (Ids.uids, fs.uids.length),
  (Ids.gids, fs.gids.length), (Ids.modes, fs.modes.length), (Ids.devices, fs.devices.length),
  (Ids.dirEntries, fs.dirEntries.length), (Ids.sharedFilesTable, fs.sharedFiles.length),
  (Ids.blockCategories, fs.blockCategoryNames.length),
  (Ids.largeHoleSize, fs.largeHoleSize.length)]

example (fs : Filesystem) : (tableLengths fs).map (·.1) = metadataTables.map (·.1) := rfl

variable {libs : Libraries} {build : Build} {image : Image}

theorem decompressSection_wider {record : SectionRecord} {cap cap' : Nat}
    (widens : Widens libs record.header.compression) (le : cap ≤ cap') {out : Bytes}
    (decoded : image.decompressSection libs record cap = .ok out) :
    image.decompressSection libs record cap' = .ok out := by
  obtain ⟨bytes, read, decoded⟩ := bind_eq_ok.mp decoded
  obtain ⟨_, verified, decoded⟩ := bind_eq_ok.mp decoded
  obtain ⟨payload, cut, decoded⟩ := bind_eq_ok.mp decoded
  unfold Image.decompressSection
  simp only [read, verified, cut, ok_bind]
  unfold Codecs.decompress noneDecompress at decoded ⊢
  unfold Widens at widens
  cases compression : record.header.compression with
  | none =>
    simp only [compression] at decoded ⊢
    split at decoded
    · cases decoded
    · rw [if_neg (by omega)]
      exact decoded
  | _ =>
    simp only [compression] at widens decoded ⊢
    first
      | exact widens _ _ _ _ le decoded
      | exact decoded

/-- The report reads the metadata under wider caps. -/
theorem reportMetadata_read (roomy : MoreRoom libs image) {m : Metadata}
    (read : readMetadata libs (.machine build) image = .ok m) :
    reportMetadata libs build image = .ok (some m) := by
  simp only [readMetadata, bind_eq_ok, okOr_eq_ok] at read
  obtain ⟨schemaSection, schemaFound, metadataSection, metadataFound, schemaBytes, schemaDecoded,
    metadataBytes, metadataDecoded, schema, parsed, read⟩ := read
  have schemaWide := decompressSection_wider (roomy _ (Or.inl schemaFound))
    (by decide : capSchemaBytes ≤ 1 <<< 24) schemaDecoded
  have metadataWide := decompressSection_wider (roomy _ (Or.inr metadataFound))
    (by decide : capMetadataBytes ≤ 1 <<< 30) metadataDecoded
  unfold reportMetadata
  simp only [schemaFound, metadataFound, schemaWide, metadataWide, parsed, read, given_ok, ok_bind]

variable {fs : Filesystem}

/-- Where every row is there to be had, the report gets through. -/
theorem printTableSizes_returns {m : Metadata}
    (reported : reportMetadata libs build image = .ok (some m))
    (rows : ∀ table ∈ metadataTables, ∃ row, tableSize m table.1 = .ok row) :
    ∃ text, printTableSizes libs build image = .ok text := by
  have lines : ∀ listed : List (Int16 × String),
      (∀ table ∈ listed, ∃ row, tableSize m table.1 = .ok row) →
      ∃ lines, collect (fun table : Int16 × String => do
        let size ← tableSize m table.1
        return size.elim "" (tableLine table.2)) listed = .ok lines := by
    intro listed sized
    induction listed with
    | nil => exact ⟨[], rfl⟩
    | cons table rest ih =>
      obtain ⟨row, measured⟩ := sized table (List.mem_cons_self ..)
      obtain ⟨lines, printed⟩ := ih fun other member => sized other (List.mem_cons_of_mem _ member)
      exact ⟨_ :: lines, by simp only [collect, measured, printed, ok_bind]; rfl⟩
  obtain ⟨lines, printed⟩ := lines metadataTables rows
  exact ⟨_, by simp only [printTableSizes, reported, printed, ok_bind]; rfl⟩

/-- A packed table is measured by its groups, each of which stands for two files or more. -/
theorem sharedFiles_row {m : Metadata} {options : FsOptions} {files : List UInt32}
    (optioned : m.fsOptions = .ok options) (read : m.sharedFilesTable = .ok files) :
    (options.packedSharedFilesTable = false →
      tableSize m Ids.sharedFilesTable = .ok (rowOf m Ids.sharedFilesTable files.length)) ∧
    (options.packedSharedFilesTable = true → ∃ groups, 2 * groups ≤ files.length ∧
      tableSize m Ids.sharedFilesTable = .ok (rowOf m Ids.sharedFilesTable groups)) := by
  obtain ⟨packed, listed, read⟩ := bind_eq_ok.mp read
  rw [optioned, ok_bind] at read
  have row := readU32List_row listed
  constructor
  · intro plain
    rw [plain] at read
    cases read
    exact row
  · intro flag
    rw [if_pos flag] at read
    have few := readU32List_length listed
    rw [defaultListCap] at few
    obtain ⟨own, ran, length⟩ := expandSharedFiles_length packed 0 (by omega)
    rw [ran] at read
    cases read
    exact ⟨packed.length, length ▸ expanded_ge packed, row⟩

theorem categories_row {m : Metadata} {names : List String}
    (resolved : resolveBlockCategories m = .ok names) (some_ : names ≠ []) :
    tableSize m Ids.blockCategories = .ok (rowOf m Ids.blockCategories names.length) := by
  obtain ⟨known, -, resolved⟩ := bind_eq_ok.mp resolved
  split at resolved
  · cases resolved
    exact absurd rfl some_
  · obtain ⟨categories, read, named⟩ := bind_eq_ok.mp resolved
    rw [collect_length named]
    exact blockCategories_row read

/-- The same tables as they are read. -/
def storedLengths (tables : Tables) : List (Int16 × Nat) := [
  (Ids.chunks, tables.chunks.length), (Ids.directories, tables.directories.length),
  (Ids.inodes, tables.inodes.length), (Ids.chunkTable, tables.chunkTable.length),
  (Ids.symlinkTable, tables.symlinkTable.length), (Ids.uids, tables.uids.length),
  (Ids.gids, tables.gids.length), (Ids.modes, tables.modes.length),
  (Ids.devices, tables.devices.length), (Ids.dirEntries, tables.dirEntries.length),
  (Ids.sharedFilesTable, tables.sharedFiles.length),
  (Ids.blockCategories, tables.blockCategoryNames.length),
  (Ids.largeHoleSize, tables.largeHoleSize.length)]

/-- Unpacking a column leaves its length. -/
theorem tableLengths_made {tables : Tables} (made : Filesystem.ofTables image tables = .ok fs) :
    tableLengths fs = storedLengths tables ∧ fs.options = tables.options ∧
      fs.sharedFiles = tables.sharedFiles ∧ fs.blockCategoryNames = tables.blockCategoryNames := by
  simp only [Filesystem.ofTables, bind_eq_ok] at made
  obtain ⟨offsets, -, ends, -, done⟩ := made
  cases done
  have directoryCount : (if tables.options.packedDirectories then
      rebuildDirectoryLinks (unpackDirectoryFirstEntries tables.directories) tables.dirEntries
      else tables.directories).length = tables.directories.length := by
    split
    · rw [rebuildDirectoryLinks_length, unpackDirectoryFirstEntries, unpackFirstEntriesFrom_length]
    · rfl
  have chunkCount : (if tables.options.packedChunkTable then
      inclusivePrefixSumU32 tables.chunkTable else tables.chunkTable).length =
      tables.chunkTable.length := by
    split
    · rw [inclusivePrefixSumU32, prefixSumFrom_length]
    · rfl
  refine ⟨?_, rfl, rfl, rfl⟩
  simp only [tableLengths, storedLengths, directoryCount, chunkCount]

theorem stored_rows {m : Metadata} {tables : Tables} (read : readTables m = .ok tables) :
    (∀ table ∈ storedLengths tables,
      (table.1 = Ids.sharedFilesTable → tables.options.packedSharedFilesTable = false) →
      (table.1 = Ids.blockCategories → tables.blockCategoryNames ≠ []) →
      tableSize m table.1 = .ok (rowOf m table.1 table.2)) ∧
    (tables.options.packedSharedFilesTable = true →
      ∃ groups, 2 * groups ≤ tables.sharedFiles.length ∧
        tableSize m Ids.sharedFilesTable = .ok (rowOf m Ids.sharedFilesTable groups)) := by
  simp only [readTables, bind_eq_ok, pure_eq_ok, Except.ok.injEq] at read
  obtain ⟨features, -, _, -, blockSize, -, options, optioned, base, -, modes, modesRead, uids,
    uidsRead, gids, gidsRead, inodes, inodesRead, directories, directoriesRead, dirEntries,
    dirEntriesRead, chunks, chunksRead, chunkTable, chunkTableRead, symlinkTable, symlinksRead,
    sharedFiles, sharedRead, holes, holesRead, _, -, names, -, symlinks, -, devices, devicesRead,
    categories, categoriesRead, _, -, _, -, _, -, rfl⟩ := read
  obtain ⟨plainShared, packedShared⟩ := sharedFiles_row optioned sharedRead
  refine ⟨?_, packedShared⟩
  simp only [storedLengths, List.mem_cons, List.not_mem_nil, or_false, forall_eq_or_imp, forall_eq]
  exact ⟨fun _ _ => decodeStructList_row chunksRead, fun _ _ => decodeStructList_row directoriesRead,
    fun _ _ => decodeStructList_row inodesRead, fun _ _ => readU32List_row chunkTableRead,
    fun _ _ => readU32List_row symlinksRead, fun _ _ => readU32List_row uidsRead,
    fun _ _ => readU32List_row gidsRead, fun _ _ => readU32List_row modesRead,
    fun _ _ => readU64List_row devicesRead, fun _ _ => decodeStructList_row dirEntriesRead,
    fun plain _ => plainShared (plain trivial),
    fun _ named => categories_row categoriesRead (named trivial),
    fun _ _ => readU64List_row holesRead⟩

/-- The report measures the tables of a filesystem that opens as that filesystem keeps them: each
row has the number of entries, and their bits from the schema, rounded up to bytes. The exceptions
are a packed table of shared files, whose row counts the groups, and block categories without
names, which the filesystem leaves unread; without these the report gets through. -/
theorem tables_reported (roomy : MoreRoom libs image)
    (opened : Filesystem.openImage libs build image = .ok fs) :
    ∃ m, reportMetadata libs build image = .ok (some m) ∧
      (∀ table ∈ tableLengths fs,
        (table.1 = Ids.sharedFilesTable → fs.options.packedSharedFilesTable = false) →
        (table.1 = Ids.blockCategories → fs.blockCategoryNames ≠ []) →
        tableSize m table.1 = .ok (rowOf m table.1 table.2)) ∧
      (fs.options.packedSharedFilesTable = true → ∃ groups, 2 * groups ≤ fs.sharedFiles.length ∧
        tableSize m Ids.sharedFilesTable = .ok (rowOf m Ids.sharedFilesTable groups)) ∧
      (fs.blockCategoryNames ≠ [] ∨ m.rootLayout.field Ids.blockCategories = none →
        ∃ text, printTableSizes libs build image = .ok text) := by
  obtain ⟨tables, read, made⟩ := openImage_eq_ok.mp opened
  obtain ⟨m, parsed, read⟩ := bind_eq_ok.mp read
  obtain ⟨rows, packedShared⟩ := stored_rows read
  obtain ⟨lengths, options, shared, categories⟩ := tableLengths_made made
  rw [← lengths, ← options, ← categories] at rows
  rw [← options, ← shared] at packedShared
  have reported := reportMetadata_read roomy parsed
  refine ⟨m, reported, rows, packedShared, ?_⟩
  intro calm
  apply printTableSizes_returns reported
  intro table member
  have listed : table.1 ∈ (tableLengths fs).map (·.1) := List.mem_map_of_mem member
  obtain ⟨own, found, same⟩ := List.mem_map.mp listed
  rw [← same]
  by_cases category : own.1 = Ids.blockCategories
  · rw [category]
    cases calm with
    | inl named =>
      have row := rows own found (fun other => absurd (category.symm.trans other) (by decide))
        fun _ => named
      exact ⟨_, category ▸ row⟩
    | inr absent => exact ⟨none, by rw [tableSize, absent]⟩
  · cases packing : fs.options.packedSharedFilesTable with
    | false => exact ⟨_, rows own found (fun _ => packing) fun here => absurd here category⟩
    | true =>
      by_cases shared : own.1 = Ids.sharedFilesTable
      · obtain ⟨groups, -, row⟩ := packedShared packing
        exact ⟨_, shared ▸ row⟩
      · exact ⟨_, rows own found (fun here => absurd here shared) fun here => absurd here category⟩

theorem tables_reported_named : ∃ m,
    reportMetadata namedLibraries .checked namedImage = .ok (some m) ∧
      tableSize m Ids.inodes = .ok (rowOf m Ids.inodes 2) := by
  have roomy : MoreRoom namedLibraries namedImage := by
    apply moreRoom_libraries
    intro record found
    rcases found with found | found
    · cases found
      exact Or.inr (by decide)
    · cases found
      exact Or.inr (by decide)
  obtain ⟨m, reported, rows, -⟩ := tables_reported roomy open_named
  exact ⟨m, reported, rows (Ids.inodes, 2) (by decide)
    (fun impossible => absurd impossible (by decide))
    fun impossible => absurd impossible (by decide)⟩

end Report

end Rdwarfs.Guarantees.TableReports
