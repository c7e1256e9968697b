import Rdwarfs.Guarantees.StringTables

/-!
# The cap on decoded lists

Every reader of a list refuses a range whose stored count is above the cap. What the accessors
make of the range afterwards keeps its length or shortens it, with one exception: a packed entry
of the shared files stands for two files and more.
-/
namespace Rdwarfs.Guarantees.ListCaps

open Lib.Machine Source Source.Metadata Metadata StringTables

section Lengths

variable {m : Metadata} {id : Int16} {cap : Nat}

theorem readCappedRange_count {pos : Pos} {layout : Layout} {what : String} {range : RangeView}
    (read : m.readCappedRange pos layout what cap = .ok range) : range.count ≤ cap := by
  simp only [Metadata.readCappedRange, bind_eq_ok, refuseIf_eq_ok, pure_eq_ok,
    Except.ok.injEq] at read
  obtain ⟨_, _, _, few, rfl⟩ := read
  exact Nat.le_of_not_lt few

theorem collect_length {α β : Type} {body : α → Result β} {xs : List α} {ys : List β}
    (collected : collect body xs = .ok ys) : ys.length = xs.length :=
  ((collect_eq_ok ..).mp collected).length_eq.symm

theorem collect_range_length {β : Type} {body : Nat → Result β} {count : Nat} {ys : List β}
    (collected : collect body (List.range count) = .ok ys) : ys.length = count := by
  rw [collect_length collected, List.length_range]

theorem readIntItems_length {layout : Layout} {range : RangeView} {values : List Nat}
    (read : m.readIntItems layout range = .ok values) : values.length = range.count := by
  unfold Metadata.readIntItems at read
  split at read
  · cases read
    rw [List.length_replicate]
  · exact collect_range_length read

theorem readIntList_length {values : List Nat} (read : m.readIntList id cap = .ok values) :
    values.length ≤ cap := by
  obtain ⟨found, _, read⟩ := bind_eq_ok.mp read
  cases found with
  | none =>
    cases read
    exact Nat.zero_le _
  | some place =>
    obtain ⟨kind, _, read⟩ := bind_eq_ok.mp read
    obtain ⟨range, capped, read⟩ := bind_eq_ok.mp read
    have few := readCappedRange_count capped
    cases kind with
    | array item =>
      obtain ⟨layout, _, read⟩ := bind_eq_ok.mp read
      obtain ⟨_, _, read⟩ := bind_eq_ok.mp read
      rwa [readIntItems_length read]
    | string =>
      cases read
      rwa [List.length_replicate]
    | _ => cases read

theorem readU32List_length {words : List UInt32} (read : m.readU32List id = .ok words) :
    words.length ≤ defaultListCap := by
  obtain ⟨values, listed, narrowed⟩ := bind_eq_ok.mp read
  rw [collect_length narrowed]
  exact readIntList_length listed

theorem readU64List_length {words : List UInt64} (read : m.readU64List id = .ok words) :
    words.length ≤ defaultListCap := by
  obtain ⟨values, listed, widened⟩ := bind_eq_ok.mp read
  cases widened
  rw [List.length_map]
  exact readIntList_length listed

theorem blockCategories_length {words : List UInt32} (read : m.blockCategories = .ok words) :
    words.length ≤ defaultListCap := by
  obtain ⟨values, listed, narrowed⟩ := bind_eq_ok.mp read
  rw [collect_length narrowed]
  exact readIntList_length listed

theorem decodeStructList_length {γ τ : Type} {prepare : Layout → Result γ}
    {decode : γ → Pos → Result τ} {rows : List τ}
    (read : m.decodeStructList id prepare decode = .ok rows) : rows.length ≤ defaultListCap := by
  obtain ⟨found, _, read⟩ := bind_eq_ok.mp read
  cases found with
  | none =>
    cases read
    exact Nat.zero_le _
  | some place =>
    obtain ⟨kind, _, read⟩ := bind_eq_ok.mp read
    cases kind with
    | array item =>
      obtain ⟨range, capped, read⟩ := bind_eq_ok.mp read
      obtain ⟨layout, _, read⟩ := bind_eq_ok.mp read
      obtain ⟨columns, _, read⟩ := bind_eq_ok.mp read
      rw [collect_range_length read]
      exact readCappedRange_count capped
    | _ => cases read

theorem readOptionalStringList_length {name : String} {strings : List String}
    (read : m.readOptionalStringList id name = .ok strings) :
    strings.length ≤ defaultListCap := by
  obtain ⟨found, _, read⟩ := bind_eq_ok.mp read
  cases found with
  | none =>
    cases read
    exact Nat.zero_le _
  | some place =>
    obtain ⟨kind, _, read⟩ := bind_eq_ok.mp read
    cases kind with
    | array item =>
      obtain ⟨range, capped, read⟩ := bind_eq_ok.mp read
      obtain ⟨layout, _, read⟩ := bind_eq_ok.mp read
      rw [collect_range_length read]
      exact readCappedRange_count capped
    | _ => cases read

end Lengths

section Tables

variable {m : Metadata} {id : Int16}

/-- Each string adds one offset. -/
theorem pushString_length {what : String} {out next : StringTable} {bytes : Bytes}
    (pushed : pushString what out bytes = .ok next) :
    next.offsets.length = out.offsets.length + 1 := by
  obtain ⟨mark, _, done⟩ := bind_eq_ok.mp pushed
  cases done
  exact List.length_append

theorem foldlM_length {α : Type} {push : StringTable → α → Result StringTable}
    (pushes : ∀ {out x next}, push out x = .ok next →
      next.offsets.length = out.offsets.length + 1) {xs : List α} {out final : StringTable}
    (folded : xs.foldlM push out = .ok final) :
    final.offsets.length = out.offsets.length + xs.length := by
  induction xs generalizing out with
  | nil =>
    cases folded
    rfl
  | cons x rest ih =>
    rw [List.foldlM_cons] at folded
    obtain ⟨next, pushed, later⟩ := bind_eq_ok.mp folded
    rw [ih later, pushes pushed, List.length_cons]
    omega

theorem pushWindow_length {buffer : Bytes} {table : Option SymTable} {out next : StringTable}
    {span : UInt32 × UInt32} (pushed : pushWindow buffer table out span = .ok next) :
    next.offsets.length = out.offsets.length + 1 := by
  obtain ⟨_, _, pushed⟩ := bind_eq_ok.mp pushed
  obtain ⟨window, _, pushed⟩ := bind_eq_ok.mp pushed
  obtain ⟨bytes, _, pushed⟩ := bind_eq_ok.mp pushed
  exact pushString_length pushed

theorem prefixSumFrom_length (acc : UInt32) (deltas : List UInt32) :
    (prefixSumFrom acc deltas).length = deltas.length := by
  induction deltas generalizing acc with
  | nil => rfl
  | cons delta rest ih => rw [prefixSumFrom, List.length_cons, List.length_cons, ih]

/-- A packed index leaves one offset out, so that it has one entry for each string. -/
theorem offsetsOf_length (index : List UInt32) (packed : Bool) :
    (offsetsOf index packed).length ≤ index.length + 1 := by
  cases packed with
  | true =>
    rw [offsetsOf, if_pos rfl, List.length_cons, inclusivePrefixSumU32, prefixSumFrom_length]
  | false => exact Nat.le_succ _

theorem decodeStringTable_len {buffer : Bytes} {symtab : Option Bytes} {index : List UInt32}
    {packed : Bool} {table : StringTable}
    (decoded : decodeStringTable buffer symtab index packed = .ok table) :
    table.len ≤ index.length := by
  rw [decodeStringTable_eq] at decoded
  split at decoded
  · cases decoded
    exact Nat.zero_le _
  · obtain ⟨symbols, _, folded⟩ := bind_eq_ok.mp decoded
    have offsets := offsetsOf_length index packed
    rw [StringTable.len, foldlM_length pushWindow_length folded, windows_length,
      List.length_singleton]
    omega

theorem readStructIntList_length {pos : Pos} {layout : Layout} {cap : Nat} {values : List Nat}
    (read : m.readStructIntList pos layout id cap = .ok values) : values.length ≤ cap := by
  unfold Metadata.readStructIntList at read
  split at read
  · cases read
    exact Nat.zero_le _
  · obtain ⟨listLayout, _, read⟩ := bind_eq_ok.mp read
    obtain ⟨kind, _, read⟩ := bind_eq_ok.mp read
    obtain ⟨listPos, _, read⟩ := bind_eq_ok.mp read
    obtain ⟨range, capped, read⟩ := bind_eq_ok.mp read
    have few := readCappedRange_count capped
    cases kind with
    | array item =>
      obtain ⟨itemLayout, _, read⟩ := bind_eq_ok.mp read
      rwa [readIntItems_length read]
    | string =>
      cases read
      rwa [List.length_replicate]
    | _ => cases read

theorem readStringTable_len {table : StringTable} (read : m.readStringTable id = .ok (some table)) :
    table.len ≤ defaultListCap := by
  obtain ⟨found, _, read⟩ := bind_eq_ok.mp read
  cases found with
  | none => cases read
  | some place =>
    obtain ⟨outer, _, read⟩ := bind_eq_ok.mp read
    obtain ⟨kind, _, read⟩ := bind_eq_ok.mp read
    cases kind with
    | optional value =>
      obtain ⟨opt, _, read⟩ := bind_eq_ok.mp read
      split at read
      · cases read
      cases value with
      | none =>
        cases read
        exact Nat.zero_le _
      | some valueId =>
        obtain ⟨layout, _, read⟩ := bind_eq_ok.mp read
        obtain ⟨buffer, _, read⟩ := bind_eq_ok.mp read
        obtain ⟨symtab, _, read⟩ := bind_eq_ok.mp read
        obtain ⟨rawIndex, listed, read⟩ := bind_eq_ok.mp read
        obtain ⟨packed, _, read⟩ := bind_eq_ok.mp read
        obtain ⟨index, narrowed, read⟩ := bind_eq_ok.mp read
        obtain ⟨decoded, tabled, done⟩ := bind_eq_ok.mp read
        cases done
        refine Nat.le_trans (decodeStringTable_len tabled) ?_
        rw [collect_length narrowed]
        exact readStructIntList_length listed
    | _ => cases read

theorem readPlainStringList_len {table : StringTable} (read : m.readPlainStringList id = .ok table) :
    table.len ≤ defaultListCap := by
  obtain ⟨found, _, read⟩ := bind_eq_ok.mp read
  cases found with
  | none =>
    cases read
    exact Nat.zero_le _
  | some place =>
    obtain ⟨kind, _, read⟩ := bind_eq_ok.mp read
    cases kind with
    | array item =>
      obtain ⟨range, capped, read⟩ := bind_eq_ok.mp read
      obtain ⟨layout, _, folded⟩ := bind_eq_ok.mp read
      have pushes {out next : StringTable} {i : Nat}
          (pushed : (do
            let pos ← m.frozen.elementPos range i
            let bytes ← m.frozen.readStringBytes pos layout
            pushString "string list" out bytes : Result StringTable) = .ok next) :
          next.offsets.length = out.offsets.length + 1 := by
        obtain ⟨pos, _, pushed⟩ := bind_eq_ok.mp pushed
        obtain ⟨bytes, _, pushed⟩ := bind_eq_ok.mp pushed
        exact pushString_length pushed
      have few := readCappedRange_count capped
      rw [StringTable.len, foldlM_length pushes folded, List.length_range, List.length_singleton]
      omega
    | _ => cases read

theorem readStrings_len {compact plain : Int16} {table : StringTable}
    (read : m.readStrings compact plain = .ok table) : table.len ≤ defaultListCap := by
  obtain ⟨found, tabled, read⟩ := bind_eq_ok.mp read
  cases found with
  | some own =>
    cases read
    exact readStringTable_len tabled
  | none => exact readPlainStringList_len read

end Tables

section SharedFiles

/-- Files that the entries of a packed table stand for. -/
def expanded (packed : List UInt32) : Nat := (packed.map fun delta => delta.toNat + 2).sum

/-- A table of as many entries as a word counts is expanded in full: the index and the run
lengths fit. -/
theorem expandSharedFiles_length (packed : List UInt32) (i : Nat)
    (few : i + packed.length ≤ 2 ^ 32) :
    ∃ files, expandSharedFiles i packed = .ok files ∧ files.length = expanded packed := by
  induction packed generalizing i with
  | nil => exact ⟨[], rfl, rfl⟩
  | cons delta rest ih =>
    rw [List.length_cons] at few
    obtain ⟨files, ran, length⟩ := ih (i + 1) (by omega)
    have run : checkedAddWord delta.toNat 2 = some (delta.toNat + 2) := by
      have low := delta.toNat_lt
      exact checkedAddWord_of_lt (by rw [wordLimit_eq]; omega)
    refine ⟨List.replicate (delta.toNat + 2) (UInt32.ofNat i) ++ files, ?_, ?_⟩
    · rw [expandSharedFiles, run, okOr_some, ok_bind, refuseIf_of_not (by omega), ok_bind, ran]
      rfl
    · rw [List.length_append, List.length_replicate, length, expanded, expanded, List.map_cons,
        List.sum_cons]

variable {m : Metadata}

/-- A packed table of shared files stands for no more files than the cap. -/
def RunsCapped (m : Metadata) : Prop :=
  ∀ packed options, m.readU32List Ids.sharedFilesTable = .ok packed → m.fsOptions = .ok options →
    options.packedSharedFilesTable = true → expanded packed ≤ defaultListCap

theorem sharedFilesTable_length_iff :
    (∀ files, m.sharedFilesTable = .ok files → files.length ≤ defaultListCap) ↔ RunsCapped m := by
  constructor
  · intro capped packed options listed read flag
    have few := readU32List_length listed
    rw [defaultListCap] at few
    obtain ⟨files, ran, length⟩ := expandSharedFiles_length packed 0 (by omega)
    rw [← length]
    refine capped files ?_
    rw [sharedFilesTable, listed, ok_bind, read, ok_bind, if_pos flag, ran]
  · intro runs files decoded
    obtain ⟨packed, listed, decoded⟩ := bind_eq_ok.mp decoded
    obtain ⟨options, read, decoded⟩ := bind_eq_ok.mp decoded
    split at decoded
    · next flag =>
      have few := readU32List_length listed
      rw [defaultListCap] at few
      obtain ⟨own, ran, length⟩ := expandSharedFiles_length packed 0 (by omega)
      rw [ran] at decoded
      cases decoded
      rw [length]
      exact runs packed options listed read flag
    · cases decoded
      exact readU32List_length listed

end SharedFiles

section Accessors

/-- The accessors that return a list. -/
inductive Accessor where
  | uids | gids | modes | chunkTableRaw | symlinkTable
  | chunks | dirEntries | inodes | directories
  | devices | largeHoleSize | blockCategories
  | features | categoryNames
  | sharedFilesTable
  | names | symlinks
  deriving DecidableEq, Repr

/-- How many elements an accessor returns. -/
def Accessor.elements (m : Metadata) : Accessor → Result Nat
  | .uids => m.uids.map List.length
  | .gids => m.gids.map List.length
  | .modes => m.modes.map List.length
  | .chunkTableRaw => m.chunkTableRaw.map List.length
  | .symlinkTable => m.symlinkTable.map List.length
  | .chunks => m.chunks.map List.length
  | .dirEntries => m.dirEntries.map List.length
  | .inodes => m.inodes.map List.length
  | .directories => m.directories.map List.length
  | .devices => m.devices.map List.length
  | .largeHoleSize => m.largeHoleSize.map List.length
  | .blockCategories => m.blockCategories.map List.length
  | .features => m.features.map List.length
  | .categoryNames => m.categoryNames.map List.length
  | .sharedFilesTable => m.sharedFilesTable.map List.length
  | .names => m.names.map StringTable.len
  | .symlinks => m.symlinks.map StringTable.len

theorem map_eq_ok {α : Type} {read : Result α} {size : α → Nat} {n : Nat} :
    read.map size = .ok n ↔ ∃ value, read = .ok value ∧ size value = n := by
  cases read <;> simp [Except.map]

theorem map_le {α : Type} {read : Result α} {size : α → Nat} {cap : Nat} :
    (∀ n, read.map size = .ok n → n ≤ cap) ↔ ∀ value, read = .ok value → size value ≤ cap := by
  constructor
  · intro bound value returned
    exact bound _ (map_eq_ok.mpr ⟨value, returned, rfl⟩)
  · intro bound n counted
    obtain ⟨value, returned, rfl⟩ := map_eq_ok.mp counted
    exact bound value returned

end Accessors

/-- What an accessor returns is within the cap, but for a packed table of shared files that
stands for more files than that. -/
theorem accessor_capped_iff (m : Metadata) (accessor : Accessor) :
    (∀ n, accessor.elements m = .ok n → n ≤ defaultListCap) ↔
      (accessor = .sharedFilesTable → RunsCapped m) := by
  have free {held : Prop} (other : accessor ≠ .sharedFilesTable) (capped : held) :
      held ↔ (accessor = .sharedFilesTable → RunsCapped m) :=
    iff_of_true capped fun same => absurd same other
  cases accessor with
  | sharedFilesTable =>
    refine map_le.trans (sharedFilesTable_length_iff.trans ?_)
    exact ⟨fun runs _ => runs, fun runs => runs rfl⟩
  | uids | gids | modes | chunkTableRaw | symlinkTable =>
    exact free (by decide) (map_le.mpr fun _ => readU32List_length)
  | devices | largeHoleSize => exact free (by decide) (map_le.mpr fun _ => readU64List_length)
  | blockCategories => exact free (by decide) (map_le.mpr fun _ => blockCategories_length)
  | chunks | dirEntries | inodes | directories =>
    exact free (by decide) (map_le.mpr fun _ => decodeStructList_length)
  | features | categoryNames =>
    exact free (by decide) (map_le.mpr fun _ => readOptionalStringList_length)
  | names | symlinks => exact free (by decide) (map_le.mpr fun _ => readStrings_len)

/-- A root of the options, which pack the shared files, and a list of one word. -/
def packedSchema : Bytes := [
  43, 6, 76, 0, 21, 2, 20, 16, 0, 2, 36, 2, 0, 4, 21, 8, 20, 64, 0, 6, 21, 4, 43, 3, 76, 2, 0, 4,
  36, 2, 0, 6, 20, 4, 0, 0, 8, 21, 2, 43, 1, 76, 10, 20, 2, 0, 0, 10, 21, 6, 43, 2, 76, 36, 20, 8,
  0, 40, 20, 6, 20, 2, 0, 0, 20, 10, 21, 2, 0]

/-- The options, the distance and count of the list, its one word `67108863`. -/
def packedBytes : Bytes := [1, 2, 1, 255, 255, 255, 3]

def packedList : Metadata where
  frozen :=
    { arith := .machine .checked
      schema :=
        { fileVersion := 1, relaxTypeChecks := false, rootLayout := 5
          layouts := [(5, ⟨3, 0, [(20, ⟨3, 1⟩), (18, ⟨4, 0⟩)], ""⟩), (4, ⟨1, 0, [(5, ⟨1, 0⟩)], ""⟩),
            (3, ⟨2, 0, [(3, ⟨2, 0⟩), (2, ⟨0, 1⟩), (1, ⟨0, 0⟩)], ""⟩), (2, ⟨4, 32, [], ""⟩),
            (1, ⟨0, 1, [], ""⟩), (0, ⟨1, 8, [], ""⟩)] }
      bytes := packedBytes }
  rootLayout := ⟨3, 0, [(20, ⟨3, 1⟩), (18, ⟨4, 0⟩)], ""⟩

/-- One word makes a list of more elements than the cap. -/
theorem packed_runs_exceed :
    (Schema.parse packedSchema >>= fun schema =>
        Metadata.parse (.machine .checked) schema packedBytes) = .ok packedList ∧
      ∃ n, Accessor.sharedFilesTable.elements packedList = .ok n ∧ defaultListCap < n := by
  have listed : packedList.readU32List Ids.sharedFilesTable = .ok [67108863] := by decide
  have read : packedList.fsOptions = .ok { packedSharedFilesTable := true } := by decide
  obtain ⟨files, ran, length⟩ := expandSharedFiles_length [67108863] 0 (by decide)
  have decoded : packedList.sharedFilesTable = .ok files := by
    rw [sharedFilesTable, listed, ok_bind, read, ok_bind, if_pos rfl, ran]
  refine ⟨by decide +kernel, files.length, ?_, ?_⟩
  · rw [Accessor.elements, decoded]
    rfl
  · rw [length]
    decide

end Rdwarfs.Guarantees.ListCaps
