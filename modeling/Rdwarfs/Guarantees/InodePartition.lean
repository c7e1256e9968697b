import Rdwarfs.Source.Fs.Tables

/-!
# The inode partition

The format numbers inodes class by class; `computeOffsets` recovers the boundaries by
looking for the first inode of each class. Files fall back to the end of the table when
there are none, which lies past the devices and special files that follow them.
-/
namespace Rdwarfs.Guarantees.InodePartition

open Lib.Machine Source Source.Metadata Source.Fs

/-- The mode of `inode` resolves, and to a kind of class `part`. -/
def HasPartition (modes : List UInt32) (part : Partition) (inode : InodeData) : Prop :=
  ∃ mode, modes[inode.modeIndex.toNat]? = some mode ∧ (modeKind mode).partition = some part

/-- An inode list in the order the format assigns. -/
structure OrderedInodes (modes : List UInt32) where
  directories : List InodeData
  symlinks : List InodeData
  files : List InodeData
  devices : List InodeData
  specials : List InodeData
  directories_kind : ∀ inode ∈ directories, HasPartition modes .directory inode
  symlinks_kind : ∀ inode ∈ symlinks, HasPartition modes .symlink inode
  files_kind : ∀ inode ∈ files, HasPartition modes .file inode
  devices_kind : ∀ inode ∈ devices, HasPartition modes .device inode
  specials_kind : ∀ inode ∈ specials, HasPartition modes .special inode
  rooted : directories ≠ []

namespace OrderedInodes

variable {modes : List UInt32} (ordered : OrderedInodes modes)

def inodes : List InodeData :=
  ordered.directories ++ ordered.symlinks ++ ordered.files ++ ordered.devices ++ ordered.specials

/-- Index of the first inode of a class, whether or not there is one. -/
def start : Partition → Nat
  | .directory => 0
  | .symlink => ordered.directories.length
  | .file => ordered.directories.length + ordered.symlinks.length
  | .device => ordered.directories.length + ordered.symlinks.length + ordered.files.length
  | .special => ordered.directories.length + ordered.symlinks.length + ordered.files.length +
      ordered.devices.length

def members : Partition → List InodeData
  | .directory => ordered.directories
  | .symlink => ordered.symlinks
  | .file => ordered.files
  | .device => ordered.devices
  | .special => ordered.specials

theorem length_inodes : ordered.inodes.length =
    ordered.start .special + ordered.specials.length := by
  simp only [inodes, start, List.length_append]

end OrderedInodes

/-- What the boundaries are for: each class that occurs starts at its offset, the shared
files are the last `shared` ones, and slots number unique files first. -/
structure Partitioned {modes : List UInt32} (ordered : OrderedInodes modes)
    (sharedFiles : List UInt32) (offsets : InodeOffsets) : Prop where
  directories : offsets.dirOffset = 0
  symlinks : ordered.symlinks ≠ [] → offsets.symlinkOffset = ordered.start .symlink
  files : ordered.files ≠ [] → offsets.fileOffset = ordered.start .file
  devices : ordered.devices ≠ [] → offsets.deviceOffset = ordered.start .device
  specials : ordered.specials ≠ [] → offsets.specialOffset = ordered.start .special
  uniques : offsets.sharedFileOffset =
    offsets.fileOffset + (ordered.files.length - sharedFiles.length)
  uniqueSlot : ∀ j, j < ordered.files.length - sharedFiles.length →
    chunkTableSlot offsets sharedFiles (UInt32.ofNat (ordered.start .file + j)) = .ok j
  sharedSlot : ∀ j group, sharedFiles[j]? = some group →
    chunkTableSlot offsets sharedFiles (UInt32.ofNat (ordered.start .file +
      (ordered.files.length - sharedFiles.length) + j)) =
        .ok (ordered.files.length - sharedFiles.length + group.toNat)

section Scan

variable {modes : List UInt32}

/-- The first index of class `part` after a block of that class at `i`. -/
def noteBlock (first : Partition → Nat) (part : Partition) (i : Nat) (block : List InodeData) :
    Partition → Nat :=
  if block = [] ∨ first part ≠ u32Max then first else Function.update first part i

theorem noteBlock_other {first : Partition → Nat} {part other : Partition} (ne : other ≠ part)
    (i : Nat) (block : List InodeData) : noteBlock first part i block other = first other := by
  unfold noteBlock
  split
  · rfl
  · exact Function.update_of_ne ne _ _

theorem noteBlock_self {first : Partition → Nat} {part : Partition} (unset : first part = u32Max)
    (i : Nat) (block : List InodeData) :
    noteBlock first part i block part = if block = [] then u32Max else i := by
  unfold noteBlock
  by_cases empty : block = []
  · simp [empty, unset]
  · simp [empty, unset]

/-- One step per class: a block of one class notes its first index, if it has one. -/
theorem scanInodes_block {part : Partition} {block : List InodeData}
    (all : ∀ inode ∈ block, HasPartition modes part inode) (rest : List InodeData) (i : Nat)
    (first : Partition → Nat) (small : i + block.length < 2 ^ 32) :
    scanInodes modes (block ++ rest) i first =
      scanInodes modes rest (i + block.length) (noteBlock first part i block) := by
  induction block generalizing i first with
  | nil => simp [noteBlock]
  | cons inode block ih =>
    obtain ⟨mode, resolves, class_⟩ := all inode (by simp)
    have later := ih fun other member => all other (by simp [member])
    simp only [List.length_cons] at small
    have word : i % 2 ^ 32 = i := Nat.mod_eq_of_lt (by omega)
    have unset : i ≠ u32Max := by
      simp only [u32Max]
      omega
    simp only [List.cons_append, scanInodes, resolves, okOr_some, ok_bind, class_, word]
    by_cases here : first part = u32Max
    · rw [if_pos here, later _ _ (by omega)]
      simp only [noteBlock, Function.update_self, ne_eq, unset, not_false_eq_true, or_true,
        if_true, here, not_true_eq_false, or_false, reduceCtorEq, if_false, List.length_cons]
      congr 1
      omega
    · rw [if_neg here, later _ _ (by omega)]
      simp only [noteBlock, ne_eq, here, not_false_eq_true, or_true, if_true, List.length_cons]
      congr 1
      omega

/-- The whole scan, one block after the other. -/
theorem scanInodes_ordered (ordered : OrderedInodes modes)
    (small : ordered.inodes.length < 2 ^ 32) :
    ∃ first, scanInodes modes ordered.inodes 0 (fun _ => u32Max) = .ok first ∧
      ∀ part, first part = if ordered.members part = [] then u32Max else ordered.start part := by
  have total := ordered.length_inodes
  simp only [OrderedInodes.start] at total
  have scanned : scanInodes modes ordered.inodes 0 (fun _ => u32Max) = .ok
      (noteBlock (noteBlock (noteBlock (noteBlock (noteBlock (fun _ => u32Max)
        .directory (ordered.start .directory) ordered.directories)
        .symlink (ordered.start .symlink) ordered.symlinks)
        .file (ordered.start .file) ordered.files)
        .device (ordered.start .device) ordered.devices)
        .special (ordered.start .special) ordered.specials) := by
    simp only [OrderedInodes.inodes, OrderedInodes.start, List.append_assoc]
    rw [scanInodes_block ordered.directories_kind _ _ _ (by omega),
      scanInodes_block ordered.symlinks_kind _ _ _ (by omega),
      scanInodes_block ordered.files_kind _ _ _ (by omega),
      scanInodes_block ordered.devices_kind _ _ _ (by omega)]
    nth_rewrite 1 [← List.append_nil ordered.specials]
    rw [scanInodes_block ordered.specials_kind _ _ _ (by omega), scanInodes]
    simp only [Nat.zero_add]
  refine ⟨_, scanned, fun part => ?_⟩
  cases part <;>
    simp only [noteBlock_other, noteBlock_self, OrderedInodes.members, ne_eq, reduceCtorEq,
      not_false_eq_true] <;> congr

end Scan

section Boundaries

variable {modes : List UInt32} (ordered : OrderedInodes modes)

/-- Where `computeOffsets` puts a class: at its first inode, or past the end. -/
def boundary (part : Partition) : Nat :=
  if ordered.members part = [] then ordered.inodes.length else ordered.start part

theorem boundary_of_member (part : Partition) (occurs : ordered.members part ≠ []) :
    boundary ordered part = ordered.start part := if_neg occurs

theorem boundary_of_empty (part : Partition) (empty : ordered.members part = []) :
    boundary ordered part = ordered.inodes.length := if_pos empty

/-- Devices and special files end the files, and so does the end of the table. -/
theorem endOfFiles_eq :
    min (boundary ordered .device) (boundary ordered .special) = ordered.start .device := by
  have total := ordered.length_inodes
  simp only [OrderedInodes.start] at total
  simp only [boundary, OrderedInodes.members, OrderedInodes.start]
  by_cases devices : ordered.devices = []
  · by_cases specials : ordered.specials = []
    · simp only [devices, specials, List.length_nil, if_true] at total ⊢
      omega
    · simp only [devices, specials, List.length_nil, if_true, if_false] at total ⊢
      omega
  · by_cases specials : ordered.specials = []
    · simp only [devices, specials, List.length_nil, if_true, if_false] at total ⊢
      omega
    · simp only [devices, specials, if_false]
      omega

theorem computeOffsets_ordered (small : ordered.inodes.length < 2 ^ 32) {shared : Nat}
    (le : shared ≤ ordered.files.length) :
    computeOffsets ordered.inodes modes shared =
      if boundary ordered .file + shared > ordered.start .device then
        fail (corrupt s!"shared_files_count {shared} larger than the regular-file range")
      else .ok {
        dirOffset := boundary ordered .directory
        symlinkOffset := boundary ordered .symlink
        fileOffset := boundary ordered .file
        sharedFileOffset := ordered.start .device - shared
        deviceOffset := boundary ordered .device
        specialOffset := boundary ordered .special
        total := ordered.inodes.length } := by
  obtain ⟨first, scanned, firsts⟩ := scanInodes_ordered ordered small
  have total := ordered.length_inodes
  simp only [OrderedInodes.start] at total
  have defaulted : ∀ part,
      min (if first part = u32Max then ordered.inodes.length else first part)
        ordered.inodes.length = boundary ordered part := by
    intro part
    rw [firsts part, boundary]
    by_cases empty : ordered.members part = []
    · simp [empty]
    · have nonempty := List.length_pos_iff.mpr empty
      have inside : ordered.start part < ordered.inodes.length := by
        cases part <;> simp only [OrderedInodes.members, OrderedInodes.start] at nonempty ⊢ <;> omega
      have word : ordered.start part ≠ u32Max := by
        simp only [u32Max]
        omega
      simp only [empty, if_false, word, Nat.min_eq_left (Nat.le_of_lt inside)]
  unfold computeOffsets
  simp only [scanned, ok_bind, Nat.mod_eq_of_lt small, defaulted, endOfFiles_eq]
  rw [refuseIf_of_not (by simp only [u32Max]; omega), ok_bind]
  have device : ordered.start .device ≤ u32Max := by
    simp only [OrderedInodes.start, u32Max]
    omega
  by_cases beyond : boundary ordered .file + shared > ordered.start .device
  · rw [refuseIf_of (Or.inr beyond), error_bind, if_pos beyond]
  · rw [refuseIf_of_not (by omega), ok_bind, if_neg beyond]
    rfl

/-- The file boundary leaves room for the shared files unless devices or special files
follow no files at all. -/
theorem file_boundary_le {shared : Nat} (le : shared ≤ ordered.files.length) :
    boundary ordered .file + shared ≤ ordered.start .device ↔
      ordered.files ≠ [] ∨ (ordered.devices = [] ∧ ordered.specials = []) := by
  have total := ordered.length_inodes
  by_cases empty : ordered.files = []
  · rw [boundary_of_empty ordered .file empty]
    simp only [empty, List.length_nil] at le
    simp only [OrderedInodes.start, empty, List.length_nil] at total ⊢
    simp only [ne_eq, not_true_eq_false, false_or, ← List.length_eq_zero_iff]
    omega
  · rw [boundary_of_member ordered .file empty]
    simp only [OrderedInodes.start, ne_eq, empty, not_false_eq_true, true_or, iff_true]
    omega

end Boundaries

section Slots

variable {modes : List UInt32} (ordered : OrderedInodes modes)
  (small : ordered.inodes.length < 2 ^ 32) {sharedFiles : List UInt32}
  (shared : sharedFiles.length ≤ ordered.files.length)

include small

theorem toNat_inode {n : Nat} (le : n ≤ ordered.start .device) : (UInt32.ofNat n).toNat = n := by
  have total := ordered.length_inodes
  simp only [OrderedInodes.start] at total le
  simp only [UInt32.toNat_ofNat']
  omega

include shared

/-- Boundaries at the files and past them make a partition. -/
theorem partitioned_of_ok {offsets : InodeOffsets}
    (computed : computeOffsets ordered.inodes modes sharedFiles.length = .ok offsets)
    (nonempty : ordered.files ≠ [] ∨ (ordered.devices = [] ∧ ordered.specials = [])) :
    Partitioned ordered sharedFiles offsets := by
  have room := (file_boundary_le ordered shared).mpr nonempty
  rw [computeOffsets_ordered ordered small shared, if_neg (Nat.not_lt.mpr room)] at computed
  cases computed
  have total := ordered.length_inodes
  have ends : ordered.start .device = ordered.start .file + ordered.files.length := rfl
  have fileBoundary : ordered.start .device =
      boundary ordered .file + ordered.files.length := by
    rcases nonempty with occurs | ⟨devices, specials⟩
    · rw [boundary_of_member ordered .file occurs, ends]
    · by_cases occurs : ordered.files = []
      · rw [boundary_of_empty ordered .file occurs, total]
        simp [OrderedInodes.start, devices, specials, occurs]
      · rw [boundary_of_member ordered .file occurs, ends]
  have someFile : ordered.files.length ≠ 0 → boundary ordered .file = ordered.start .file :=
    fun occurs => boundary_of_member ordered .file fun empty => occurs (congrArg List.length empty)
  refine
    { directories := boundary_of_member ordered .directory ordered.rooted
      symlinks := boundary_of_member ordered .symlink
      files := boundary_of_member ordered .file
      devices := boundary_of_member ordered .device
      specials := boundary_of_member ordered .special
      uniques := ?uniques, uniqueSlot := ?uniqueSlot, sharedSlot := ?sharedSlot }
  case uniques =>
    simp only
    omega
  case uniqueSlot =>
    intro j lt
    have file := someFile (by omega)
    unfold chunkTableSlot
    simp only [toNat_inode ordered small (show ordered.start .file + j ≤ _ by omega)]
    rw [subWord_of_le (by omega), ok_bind, if_pos (by omega), refuseIf_of_not (by omega), ok_bind]
    simp only [pure_eq_ok]
    congr 1
    omega
  case sharedSlot =>
    intro j group found
    have inside : j < sharedFiles.length := (List.getElem?_eq_some_iff.mp found).1
    have file := someFile (by omega)
    have groupLt := group.toNat_lt
    unfold chunkTableSlot
    simp only [toNat_inode ordered small (show ordered.start .file +
      (ordered.files.length - sharedFiles.length) + j ≤ _ by omega)]
    rw [subWord_of_le (by omega), ok_bind, if_neg (by omega)]
    rw [show ordered.start .file + (ordered.files.length - sharedFiles.length) + j -
      (ordered.start .device - sharedFiles.length) = j by omega, found, okOr_some, ok_bind]
    rw [checkedAddWord_of_lt (by
      simp only [wordLimit_eq, OrderedInodes.start] at *
      omega), okOr_some]
    congr 2
    omega

end Slots

/-- Boundaries are found, and divide the table as the format does, exactly when there are
regular files or nothing comes after them. -/
theorem partition_iff {modes : List UInt32} (ordered : OrderedInodes modes)
    (sharedFiles : List UInt32) (small : ordered.inodes.length < 2 ^ 32)
    (shared : sharedFiles.length ≤ ordered.files.length) :
    (∃ offsets, computeOffsets ordered.inodes modes sharedFiles.length = .ok offsets ∧
      Partitioned ordered sharedFiles offsets) ↔
    ordered.files ≠ [] ∨ (ordered.devices = [] ∧ ordered.specials = []) := by
  constructor
  · rintro ⟨offsets, computed, -⟩
    rw [← file_boundary_le ordered shared]
    rw [computeOffsets_ordered ordered small shared] at computed
    split at computed
    · cases computed
    · rename_i room
      omega
  · intro nonempty
    have room := (file_boundary_le ordered shared).mpr nonempty
    have computed := computeOffsets_ordered ordered small shared
    rw [if_neg (Nat.not_lt.mpr room)] at computed
    exact ⟨_, computed, partitioned_of_ok ordered small shared computed nonempty⟩

section Inputs

def inodeOf (modeIndex : UInt32) : InodeData :=
  ⟨modeIndex, 0, 0, 0, 0, 0, 0, 0, 0, 0, 0, 0⟩

/-- Modes of a directory, a regular file and a character device. -/
def someModes : List UInt32 := [0o040755, 0o100644, 0o020600]

theorem someModes_directory : ∀ inode ∈ [inodeOf 0], HasPartition someModes .directory inode := by
  intro inode member
  rw [List.mem_singleton.mp member]
  exact ⟨_, rfl, by decide⟩

/-- A root, and three files of which the last two share their content. -/
def fileTable : OrderedInodes someModes where
  directories := [inodeOf 0]
  symlinks := []
  files := [inodeOf 1, inodeOf 1, inodeOf 1]
  devices := []
  specials := []
  directories_kind := someModes_directory
  symlinks_kind := by simp
  files_kind := by
    intro inode member
    rw [show inode = inodeOf 1 by simpa using member]
    exact ⟨_, rfl, by decide⟩
  devices_kind := by simp
  specials_kind := by simp
  rooted := by simp

/-- A root and a device. -/
def deviceTable : OrderedInodes someModes where
  directories := [inodeOf 0]
  symlinks := []
  files := []
  devices := [inodeOf 2]
  specials := []
  directories_kind := someModes_directory
  symlinks_kind := by simp
  files_kind := by simp
  devices_kind := by
    intro inode member
    rw [List.mem_singleton.mp member]
    exact ⟨_, rfl, by decide⟩
  specials_kind := by simp
  rooted := by simp

theorem partition_shared_files :
    ∃ offsets, computeOffsets fileTable.inodes someModes 2 = .ok offsets ∧
      Partitioned fileTable [0, 0] offsets :=
  (partition_iff fileTable [0, 0] (by decide) (by decide)).mpr (Or.inl (by decide))

/-- A tree with a device and no regular file is refused. -/
theorem partition_device_only :
    computeOffsets deviceTable.inodes someModes 0 =
        fail (corrupt "shared_files_count 0 larger than the regular-file range") ∧
      ¬ ∃ offsets, computeOffsets deviceTable.inodes someModes 0 = .ok offsets ∧
        Partitioned deviceTable [] offsets := by
  have refused : computeOffsets deviceTable.inodes someModes 0 =
      fail (corrupt "shared_files_count 0 larger than the regular-file range") := by
    decide
  refine ⟨refused, ?_⟩
  rintro ⟨offsets, computed, -⟩
  rw [refused] at computed
  cases computed

end Inputs

end Rdwarfs.Guarantees.InodePartition
