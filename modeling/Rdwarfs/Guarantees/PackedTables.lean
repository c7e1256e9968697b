import Rdwarfs.Lib.Writes
import Rdwarfs.Source.Fs.Filesystem
import Mathlib.Data.UInt

/-!
# Packed tables

A writer may store `chunk_table` and the `first_entry` column as deltas, drop the two
link columns of the directory table, and store shared-file groups as run lengths. What
the reader rebuilds is the table that was packed.
-/
namespace Rdwarfs.Guarantees.PackedTables

open Lib.Machine Lib.Writes Source Source.Metadata Source.Fs

section Deltas

/-- Differences from one value to the next, the first one from `previous`. -/
def deltasFrom (previous : UInt32) : List UInt32 → List UInt32
  | [] => []
  | value :: rest => (value - previous) :: deltasFrom value rest

/-- The packed form of `chunk_table`. -/
def packChunkTable (table : List UInt32) : List UInt32 := deltasFrom 0 table

theorem prefixSumFrom_deltasFrom (previous : UInt32) (table : List UInt32) :
    prefixSumFrom previous (deltasFrom previous table) = table := by
  induction table generalizing previous with
  | nil => rfl
  | cons value rest ih =>
    rw [deltasFrom, prefixSumFrom, add_sub_cancel, ih]

/-- Delta packing with the links dropped, the first delta from `previous`. -/
def packDirectoriesFrom (previous : UInt32) : List Directory → List Directory
  | [] => []
  | dir :: rest =>
    { parentEntry := 0, firstEntry := dir.firstEntry - previous, selfEntry := 0 } ::
      packDirectoriesFrom dir.firstEntry rest

/-- The packed form of the directory table. -/
def packDirectories (dirs : List Directory) : List Directory := packDirectoriesFrom 0 dirs

/-- A directory without its links. -/
def unlinked (dir : Directory) : Directory := { dir with parentEntry := 0, selfEntry := 0 }

theorem unpackFirstEntriesFrom_pack (previous : UInt32) (dirs : List Directory) :
    unpackFirstEntriesFrom previous (packDirectoriesFrom previous dirs) = dirs.map unlinked := by
  induction dirs generalizing previous with
  | nil => rfl
  | cons dir rest ih =>
    simp only [packDirectoriesFrom, unpackFirstEntriesFrom, add_sub_cancel, ih, List.map_cons]
    rfl

end Deltas

section Groups

/-- Group ids `0 .. groups - 1` in ascending runs of at least two. -/
structure GroupRuns (sharedFiles : List UInt32) (groups : Nat) : Prop where
  ascending : sharedFiles.Pairwise (· ≤ ·)
  inside : ∀ group ∈ sharedFiles, group.toNat < groups
  shared : ∀ i, i < groups → 2 ≤ sharedFiles.count (UInt32.ofNat i)
  ids : groups ≤ 2 ^ 32
  /-- A slot of the table belongs to an inode, whose number is a 32-bit word. -/
  slots : sharedFiles.length < 2 ^ 32

/-- The packed form of `shared_files_table`: run lengths minus two. -/
def packSharedFiles (sharedFiles : List UInt32) (groups : Nat) : List UInt32 :=
  (List.range groups).map fun i => UInt32.ofNat (sharedFiles.count (UInt32.ofNat i) - 2)

/-- The runs of the groups from `i` on, `count` of them. -/
def runsFrom (sharedFiles : List UInt32) (i : Nat) : Nat → List UInt32
  | 0 => []
  | count + 1 =>
    List.replicate (sharedFiles.count (UInt32.ofNat i)) (UInt32.ofNat i) ++
      runsFrom sharedFiles (i + 1) count

theorem mem_runsFrom {sharedFiles : List UInt32} {i count : Nat} {group : UInt32}
    (member : group ∈ runsFrom sharedFiles i count) :
    ∃ j, i ≤ j ∧ j < i + count ∧ group = UInt32.ofNat j := by
  induction count generalizing i with
  | zero => simp [runsFrom] at member
  | succ count ih =>
    rcases List.mem_append.mp member with here | later
    · exact ⟨i, Nat.le_refl i, by omega, List.eq_of_mem_replicate here⟩
    · obtain ⟨j, le, lt, eq⟩ := ih later
      exact ⟨j, by omega, by omega, eq⟩

theorem toNat_ofNat_of_lt {n : Nat} (small : n < 2 ^ 32) : (UInt32.ofNat n).toNat = n := by
  simp only [UInt32.toNat_ofNat']
  omega

theorem runsFrom_ascending (sharedFiles : List UInt32) {i count : Nat}
    (ids : i + count ≤ 2 ^ 32) : (runsFrom sharedFiles i count).Pairwise (· ≤ ·) := by
  induction count generalizing i with
  | zero => simp [runsFrom]
  | succ count ih =>
    refine List.pairwise_append.mpr ⟨?_, ih (by omega), ?_⟩
    · exact List.pairwise_replicate.mpr (Or.inr (UInt32.le_refl _))
    · intro group here other later
      obtain ⟨j, le, lt, rfl⟩ := mem_runsFrom later
      rw [List.eq_of_mem_replicate here, UInt32.le_iff_toNat_le, toNat_ofNat_of_lt (by omega),
        toNat_ofNat_of_lt (by omega)]
      omega

theorem count_runsFrom (sharedFiles : List UInt32) {i count : Nat} (ids : i + count ≤ 2 ^ 32)
    (group : UInt32) :
    (runsFrom sharedFiles i count).count group =
      if i ≤ group.toNat ∧ group.toNat < i + count then sharedFiles.count group else 0 := by
  induction count generalizing i with
  | zero =>
    rw [if_neg (by omega)]
    rfl
  | succ count ih =>
    rw [runsFrom, List.count_append, ih (by omega), List.count_replicate]
    by_cases here : UInt32.ofNat i = group
    · subst here
      have value := toNat_ofNat_of_lt (show i < 2 ^ 32 by omega)
      rw [if_pos (by simp), if_neg (by omega), if_pos (by omega), Nat.add_zero]
    · have ne : group.toNat ≠ i := by
        intro eq
        exact here (by rw [← eq, UInt32.ofNat_toNat])
      rw [if_neg (by simpa using here), Nat.zero_add]
      congr 1
      simp only [eq_iff_iff]
      omega

/-- A table of ascending runs is the concatenation of its runs. -/
theorem runsFrom_eq {sharedFiles : List UInt32} {groups : Nat} (runs : GroupRuns sharedFiles groups) :
    runsFrom sharedFiles 0 groups = sharedFiles := by
  have ids := runs.ids
  refine List.Perm.eq_of_pairwise (fun a b _ _ le ge => UInt32.le_antisymm le ge)
    (runsFrom_ascending sharedFiles (by omega)) runs.ascending (List.perm_iff_count.mpr fun group => ?_)
  rw [count_runsFrom sharedFiles (by omega)]
  by_cases member : group ∈ sharedFiles
  · rw [if_pos ⟨Nat.zero_le _, by simpa using runs.inside group member⟩]
  · rw [List.count_eq_zero_of_not_mem member, ite_self]

theorem expandSharedFiles_pack {sharedFiles : List UInt32} {groups : Nat}
    (runs : GroupRuns sharedFiles groups) (i count : Nat) (inside : i + count = groups) :
    expandSharedFiles i ((List.range' i count).map fun i =>
        UInt32.ofNat (sharedFiles.count (UInt32.ofNat i) - 2)) =
      .ok (runsFrom sharedFiles i count) := by
  induction count generalizing i with
  | zero => rfl
  | succ count ih =>
    have ids := runs.ids
    have slots := runs.slots
    have atLeast := runs.shared i (by omega)
    have atMost : sharedFiles.count (UInt32.ofNat i) ≤ sharedFiles.length := List.count_le_length
    simp only [List.range'_succ, List.map_cons, expandSharedFiles,
      toNat_ofNat_of_lt (show sharedFiles.count (UInt32.ofNat i) - 2 < 2 ^ 32 by omega)]
    rw [checkedAddWord_of_lt (by rw [wordLimit_eq]; omega), okOr_some, ok_bind,
      refuseIf_of_not (by omega), ok_bind, ih (i + 1) (by omega), ok_bind,
      Nat.sub_add_cancel atLeast]
    rfl

end Groups

section Links

/-- The directory an entry names, if it names one other than the root. -/
def namedDirectory (dirEntries : List DirEntry) (dirCount e : Nat) : Option Nat :=
  let child := childOf dirEntries e
  if child < dirCount ∧ child ≠ 0 then some child else none

theorem namedDirectory_eq_some {dirEntries : List DirEntry} {dirCount e c : Nat} :
    namedDirectory dirEntries dirCount e = some c ↔ childOf dirEntries e = c ∧ c < dirCount ∧ c ≠ 0 := by
  simp only [namedDirectory, Option.ite_none_right_eq_some, Option.some.injEq]
  constructor
  · rintro ⟨inside, rfl⟩
    exact ⟨rfl, inside⟩
  · rintro ⟨rfl, inside⟩
    exact ⟨inside, rfl⟩

/-- `self_entry[child] = e` unless it is set. -/
def putSelf (e : Nat) (value : UInt32) : UInt32 := if value = 0 then UInt32.ofNat e else value

def putParent (link : Nat × UInt32) (dir : Directory) : Directory :=
  { dir with parentEntry := link.2 }

/-- The first pass over the entries of every directory. -/
def selfEntries (dirs : List Directory) (dirEntries : List DirEntry) (dirCount : Nat) :
    List UInt32 :=
  writeAll (namedDirectory dirEntries dirCount) putSelf
    ((List.range dirCount).flatMap (entriesOf dirs dirEntries.length))
    (List.replicate dirCount 0)

/-- The second pass: the same entries, each with its directory's own entry. -/
def parentLinks (dirs : List Directory) (dirEntries : List DirEntry) (selfEntry : List UInt32) :
    List (Nat × UInt32) :=
  selfEntry.zipIdx.flatMap fun row =>
    (entriesOf dirs dirEntries.length row.2).map fun e => (e, row.1)

theorem noteSelfEntry_eq (dirEntries : List DirEntry) (dirCount : Nat) :
    noteSelfEntry dirEntries dirCount = writeOne (namedDirectory dirEntries dirCount) putSelf := by
  funext selfEntry e
  unfold noteSelfEntry writeOne namedDirectory
  by_cases inside : childOf dirEntries e < dirCount ∧ childOf dirEntries e ≠ 0
  · rw [if_pos inside]
    dsimp only
    apply List.ext_getElem?
    intro i
    by_cases unset : selfEntry[childOf dirEntries e]? = some 0
    · rw [if_pos ⟨inside.1, inside.2, unset⟩]
      by_cases here : childOf dirEntries e = i
      · subst here
        obtain ⟨lt, zero⟩ := List.getElem?_eq_some_iff.mp unset
        simp [putSelf, lt, zero]
      · simp [here]
    · rw [if_neg (by simp [unset])]
      by_cases here : childOf dirEntries e = i
      · subst here
        cases row : selfEntry[childOf dirEntries e]? with
        | none => simp [row]
        | some value =>
          have set_ : value ≠ 0 := fun zero => unset (by rw [row, zero])
          simp [row, putSelf, set_]
      · simp [here]
  · rw [if_neg inside, if_neg fun all => inside ⟨all.1, all.2.1⟩]

theorem noteParentEntry_eq (dirEntries : List DirEntry) (dirCount : Nat) (parentSelf : UInt32) :
    noteParentEntry dirEntries dirCount parentSelf = fun dirs e =>
      writeOne (fun link => namedDirectory dirEntries dirCount link.1) putParent dirs
        (e, parentSelf) := by
  funext dirs e
  unfold noteParentEntry writeOne namedDirectory
  by_cases inside : childOf dirEntries e < dirCount ∧ childOf dirEntries e ≠ 0
  · simp only [if_pos inside]
    rfl
  · simp only [if_neg inside]

/-- The three passes, as loops that write into a table. -/
theorem rebuildDirectoryLinks_eq {dirs : List Directory} {dirCount : Nat}
    (length : dirs.length = dirCount + 1) (dirEntries : List DirEntry) :
    rebuildDirectoryLinks dirs dirEntries =
      writeAll (fun row => some row.2) (fun row dir => { dir with selfEntry := row.1 })
        (selfEntries dirs dirEntries dirCount).zipIdx
        (writeAll (fun link => namedDirectory dirEntries dirCount link.1) putParent
          (parentLinks dirs dirEntries (selfEntries dirs dirEntries dirCount)) dirs) := by
  have first : (List.range dirCount).foldl (fun selfEntry d =>
      (entriesOf dirs dirEntries.length d).foldl (noteSelfEntry dirEntries dirCount) selfEntry)
      (List.replicate dirCount 0) = selfEntries dirs dirEntries dirCount := by
    rw [selfEntries, writeAll, List.foldl_flatMap, noteSelfEntry_eq]
  unfold rebuildDirectoryLinks
  rw [length]
  simp only [first]
  rw [writeAll, writeAll, parentLinks, List.foldl_flatMap]
  simp only [noteParentEntry_eq, List.foldl_map]
  rfl

end Links

section Tree

/-- A directory table with its sentinel, over entries that form a tree below the root:
entry 0 names the root, the ranges of the directories cover the other entries, every
other directory is named exactly once, and the links say where. -/
structure TreeTable (dirs : List Directory) (dirEntries : List DirEntry) (dirCount : Nat) :
    Prop where
  length : dirs.length = dirCount + 1
  rooted : 0 < dirCount
  rootEntry : ∃ entry, dirEntries[0]? = some entry ∧ entry.inodeNum = 0
  root : ∀ dir, dirs[0]? = some dir →
    dir.firstEntry = 1 ∧ dir.parentEntry = 0 ∧ dir.selfEntry = 0
  sentinel : ∀ dir, dirs[dirCount]? = some dir →
    dir.firstEntry.toNat = dirEntries.length ∧ dir.parentEntry = 0 ∧ dir.selfEntry = 0
  ascending : ∀ (d : Nat) (dir next : Directory), dirs[d]? = some dir → dirs[d + 1]? = some next →
    dir.firstEntry ≤ next.firstEntry
  named : ∀ c, 0 < c → c < dirCount →
    ∃ e, 0 < e ∧ e < dirEntries.length ∧ childOf dirEntries e = c
  once : ∀ e e', 0 < e → e < dirEntries.length → 0 < e' → e' < dirEntries.length →
    childOf dirEntries e = childOf dirEntries e' → 0 < childOf dirEntries e →
    childOf dirEntries e < dirCount → e = e'
  selfLink : ∀ (c : Nat) (dir : Directory) (e : Nat), dirs[c]? = some dir → 0 < c →
    c < dirCount → 0 < e → e < dirEntries.length → childOf dirEntries e = c →
    dir.selfEntry = UInt32.ofNat e
  parentLink : ∀ (c : Nat) (child : Directory) (d : Nat) (dir : Directory) (e : Nat),
    dirs[c]? = some child → 0 < c → c < dirCount → dirs[d]? = some dir → d < dirCount →
    e ∈ entriesOf dirs dirEntries.length d → childOf dirEntries e = c → child.parentEntry = dir.selfEntry

variable {dirs : List Directory} {dirEntries : List DirEntry} {dirCount : Nat}

def firstOf (dirs : List Directory) (d : Nat) : Nat :=
  match dirs[d]? with
  | some dir => dir.firstEntry.toNat
  | none => 0

theorem entriesOf_unlinked (entryCount d : Nat) :
    entriesOf (dirs.map unlinked) entryCount d = entriesOf dirs entryCount d := by
  simp only [entriesOf, entryRange, List.getElem?_map]
  cases dirs[d]? <;> cases dirs[d + 1]? <;> rfl

variable (table : TreeTable dirs dirEntries dirCount)

include table

theorem TreeTable.row {d : Nat} (le : d ≤ dirCount) : ∃ dir, dirs[d]? = some dir :=
  ⟨_, List.getElem?_eq_getElem (by rw [table.length]; omega)⟩

theorem TreeTable.firstOf_le {d : Nat} (lt : d < dirCount) :
    firstOf dirs d ≤ firstOf dirs (d + 1) := by
  obtain ⟨dir, here⟩ := table.row (Nat.le_of_lt lt)
  obtain ⟨next, there⟩ := table.row lt
  simpa [firstOf, here, there, UInt32.le_iff_toNat_le] using table.ascending d dir next here there

theorem TreeTable.firstOf_zero : firstOf dirs 0 = 1 := by
  obtain ⟨dir, here⟩ := table.row (Nat.zero_le _)
  simp [firstOf, here, (table.root dir here).1]

theorem TreeTable.firstOf_sentinel : firstOf dirs dirCount = dirEntries.length := by
  obtain ⟨dir, here⟩ := table.row (Nat.le_refl _)
  simp [firstOf, here, (table.sentinel dir here).1]

theorem TreeTable.firstOf_bounds {d : Nat} (le : d ≤ dirCount) :
    1 ≤ firstOf dirs d ∧ firstOf dirs d ≤ dirEntries.length := by
  constructor
  · induction d with
    | zero => exact Nat.le_of_eq table.firstOf_zero.symm
    | succ d ih => exact Nat.le_trans (ih (by omega)) (table.firstOf_le le)
  · induction le using Nat.decreasingInduction with
    | self => exact Nat.le_of_eq table.firstOf_sentinel
    | of_succ d lt ih => exact Nat.le_trans (table.firstOf_le lt) ih

/-- The entries of directory `d` are those from its first one up to the next directory's. -/
theorem TreeTable.mem_entriesOf {d e : Nat} (lt : d < dirCount) :
    e ∈ entriesOf dirs dirEntries.length d ↔ firstOf dirs d ≤ e ∧ e < firstOf dirs (d + 1) := by
  obtain ⟨dir, here⟩ := table.row (Nat.le_of_lt lt)
  obtain ⟨next, there⟩ := table.row lt
  have step := table.firstOf_le lt
  have bound := (table.firstOf_bounds lt).2
  simp only [firstOf, here, there] at step bound ⊢
  simp only [entriesOf, entryRange, here, there, bind, Option.bind]
  rw [if_pos ⟨step, bound⟩]
  simp only [List.mem_range'_1]
  omega

theorem TreeTable.inside_of_mem {d e : Nat} (lt : d < dirCount)
    (member : e ∈ entriesOf dirs dirEntries.length d) : 0 < e ∧ e < dirEntries.length := by
  have range := (table.mem_entriesOf lt).mp member
  have low := table.firstOf_bounds (Nat.le_of_lt lt)
  have high : 1 ≤ firstOf dirs (d + 1) ∧ firstOf dirs (d + 1) ≤ dirEntries.length :=
    table.firstOf_bounds lt
  omega

/-- Every entry but the root's belongs to a directory. -/
theorem TreeTable.covered {e : Nat} (pos : 0 < e) (lt : e < dirEntries.length) :
    ∃ d, d < dirCount ∧ e ∈ entriesOf dirs dirEntries.length d := by
  have upTo : ∀ k, k ≤ dirCount → e < firstOf dirs k →
      ∃ d, d < dirCount ∧ e ∈ entriesOf dirs dirEntries.length d := by
    intro k
    induction k with
    | zero =>
      intro _ below
      rw [table.firstOf_zero] at below
      omega
    | succ k ih =>
      intro le below
      by_cases earlier : e < firstOf dirs k
      · exact ih (by omega) earlier
      · exact ⟨k, le, (table.mem_entriesOf le).mpr ⟨Nat.le_of_not_lt earlier, below⟩⟩
  exact upTo dirCount (Nat.le_refl _) (by rw [table.firstOf_sentinel]; exact lt)

/-- The first pass recovers the column of own entries. -/
theorem TreeTable.selfEntries_eq :
    selfEntries (dirs.map unlinked) dirEntries dirCount =
      (dirs.take dirCount).map (·.selfEntry) := by
  have length := table.length
  apply List.ext_getElem?
  intro c
  by_cases inside : c < dirCount
  · obtain ⟨dir, here⟩ := table.row (Nat.le_of_lt inside)
    have right : ((dirs.take dirCount).map (·.selfEntry))[c]? = some dir.selfEntry := by
      simp [inside, here]
    rw [right, selfEntries]
    by_cases root : c = 0
    · subst root
      rw [writeAll_untouched fun e _ hits => (namedDirectory_eq_some.mp hits).2.2 rfl]
      simp [inside, (table.root dir here).2.2]
    · obtain ⟨e, pos, lt, child⟩ := table.named c (by omega) inside
      obtain ⟨d, below, member⟩ := table.covered pos lt
      -- the one entry that names `c` is the only one to write its row
      have alike : ∀ e' ∈ (List.range dirCount).flatMap
          (entriesOf (dirs.map unlinked) dirEntries.length),
          namedDirectory dirEntries dirCount e' = some c → putSelf e' = putSelf e := by
        intro e' member' hits
        obtain ⟨d', below', range⟩ := List.mem_flatMap.mp member'
        rw [entriesOf_unlinked] at range
        have bounds := table.inside_of_mem (by simpa using below') range
        have child' := (namedDirectory_eq_some.mp hits).1
        rw [table.once e' e bounds.1 bounds.2 pos lt (by rw [child', child]) (by omega) (by omega)]
      have settles : ∀ value, putSelf e (putSelf e value) = putSelf e value := by
        intro value
        unfold putSelf
        split <;> simp_all
      rw [writeAll_agreed alike settles
        ⟨e, List.mem_flatMap.mpr ⟨d, by simpa using below, by rwa [entriesOf_unlinked]⟩,
          namedDirectory_eq_some.mpr ⟨child, inside, root⟩⟩]
      simp [inside, putSelf, table.selfLink c dir e here (by omega) inside pos lt child]
  · rw [List.getElem?_eq_none (by simp [selfEntries]; omega),
      List.getElem?_eq_none (by simp; omega)]

theorem TreeTable.mem_zipIdx {row : UInt32 × Nat}
    (member : row ∈ ((dirs.take dirCount).map (·.selfEntry)).zipIdx) :
    row.2 < dirCount ∧ ∃ dir, dirs[row.2]? = some dir ∧ row.1 = dir.selfEntry := by
  obtain ⟨value, d⟩ := row
  have found := List.mem_zipIdx_iff_getElem?.mp member
  have inside : d < dirCount := by
    have bound := (List.getElem?_eq_some_iff.mp found).1
    simp only [List.length_map, List.length_take] at bound
    omega
  obtain ⟨dir, here⟩ := table.row (Nat.le_of_lt inside)
  simp only [List.getElem?_map, List.getElem?_take, inside, if_true, here, Option.map_some,
    Option.some.injEq] at found
  exact ⟨inside, dir, here, found.symm⟩

/-- The second pass recovers the column of parents' entries. -/
theorem TreeTable.parentEntries_eq {c : Nat} {dir : Directory} (here : dirs[c]? = some dir) :
    (writeAll (fun link => namedDirectory dirEntries dirCount link.1) putParent
      (parentLinks (dirs.map unlinked) dirEntries ((dirs.take dirCount).map (·.selfEntry)))
      (dirs.map unlinked))[c]? = some { dir with selfEntry := 0 } := by
  have length := table.length
  by_cases named : c < dirCount ∧ c ≠ 0
  · obtain ⟨e, pos, lt, child⟩ := table.named c (by omega) named.1
    obtain ⟨d, below, member⟩ := table.covered pos lt
    obtain ⟨parent, found⟩ := table.row (Nat.le_of_lt below)
    have alike : ∀ link ∈ parentLinks (dirs.map unlinked) dirEntries
        ((dirs.take dirCount).map (·.selfEntry)),
        namedDirectory dirEntries dirCount link.1 = some c →
          putParent link = putParent (e, parent.selfEntry) := by
      intro link member' hits
      obtain ⟨row, rowMember, linkMember⟩ := List.mem_flatMap.mp member'
      obtain ⟨e', range, rfl⟩ := List.mem_map.mp linkMember
      obtain ⟨below', parent', found', value⟩ := table.mem_zipIdx rowMember
      rw [entriesOf_unlinked] at range
      have child' := (namedDirectory_eq_some.mp hits).1
      have same := table.parentLink c dir row.2 parent' e' here (by omega) named.1 found' below'
        range child'
      have same' := table.parentLink c dir d parent e here (by omega) named.1 found below member child
      funext other
      simp only [putParent, value, ← same, ← same']
    have link : (e, parent.selfEntry) ∈ parentLinks (dirs.map unlinked) dirEntries
        ((dirs.take dirCount).map (·.selfEntry)) := by
      refine List.mem_flatMap.mpr ⟨(parent.selfEntry, d), ?_, ?_⟩
      · refine List.mem_zipIdx_iff_getElem?.mpr ?_
        simp [below, found]
      · exact List.mem_map.mpr ⟨e, by rwa [entriesOf_unlinked], rfl⟩
    rw [writeAll_agreed alike (fun _ => rfl)
      ⟨_, link, namedDirectory_eq_some.mpr ⟨child, named.1, named.2⟩⟩]
    have parentEntry := table.parentLink c dir d parent e here (by omega) named.1 found below
      member child
    simp [here, putParent, unlinked, ← parentEntry]
  · rw [writeAll_untouched fun link _ hits => named (namedDirectory_eq_some.mp hits).2]
    -- the root and the sentinel have no parent entry
    have none_ : dir.parentEntry = 0 := by
      by_cases root : c = 0
      · subst root
        exact (table.root dir here).2.1
      · have bound := (List.getElem?_eq_some_iff.mp here).1
        obtain rfl : c = dirCount := by omega
        exact (table.sentinel dir here).2.1
    simp [here, unlinked, none_]

/-- Rebuilding the links of a table without them gives the table back. -/
theorem TreeTable.rebuild :
    rebuildDirectoryLinks (dirs.map unlinked) dirEntries = dirs := by
  have length := table.length
  rw [rebuildDirectoryLinks_eq (by simpa using table.length), table.selfEntries_eq]
  apply List.ext_getElem?
  intro c
  by_cases inside : c < dirs.length
  · have here : dirs[c]? = some dirs[c] := List.getElem?_eq_getElem inside
    by_cases below : c < dirCount
    · have row : (dirs[c].selfEntry, c) ∈ ((dirs.take dirCount).map (·.selfEntry)).zipIdx := by
        refine List.mem_zipIdx_iff_getElem?.mpr ?_
        simpa [below] using ⟨_, here, rfl⟩
      have alike : ∀ row ∈ ((dirs.take dirCount).map (·.selfEntry)).zipIdx, some row.2 = some c →
          (fun dir : Directory => { dir with selfEntry := row.1 }) =
            fun dir => { dir with selfEntry := dirs[c].selfEntry } := by
        intro row member hits
        obtain ⟨-, dir, found, value⟩ := table.mem_zipIdx member
        obtain rfl : row.2 = c := by simpa using hits
        rw [here, Option.some.injEq] at found
        rw [value, ← found]
      rw [writeAll_agreed alike (fun _ => rfl) ⟨_, row, rfl⟩, table.parentEntries_eq here, here]
      rfl
    · obtain rfl : c = dirCount := by omega
      rw [writeAll_untouched fun row member hits => by
          have bound := (table.mem_zipIdx member).1
          simp only [Option.some.injEq] at hits
          omega,
        table.parentEntries_eq here, here]
      rw [← (table.sentinel _ here).2.2]
  · rw [List.getElem?_eq_none (by simpa using inside), List.getElem?_eq_none (by omega)]

/-- The own entry of a directory names it. -/
theorem TreeTable.ownEntry {d : Nat} {dir : Directory} (here : dirs[d]? = some dir)
    (below : d < dirCount) :
    ∃ entry, dirEntries[dir.selfEntry.toNat]? = some entry ∧ entry.inodeNum = UInt32.ofNat d := by
  by_cases root : d = 0
  · subst root
    rw [(table.root dir here).2.2]
    exact table.rootEntry
  · obtain ⟨e, pos, lt, child⟩ := table.named d (by omega) below
    have word : dirEntries.length < 2 ^ 32 := by
      obtain ⟨last, there⟩ := table.row (Nat.le_refl dirCount)
      have bound := last.firstEntry.toNat_lt
      have eq := (table.sentinel last there).1
      omega
    rw [table.selfLink d dir e here (by omega) below pos lt child,
      toNat_ofNat_of_lt (by omega), List.getElem?_eq_getElem lt]
    refine ⟨_, rfl, ?_⟩
    simp only [childOf, List.getElem?_eq_getElem lt] at child
    rw [← child, UInt32.ofNat_toNat]

/-- In a filesystem over the table, a directory's parent is the one that lists it. -/
theorem TreeTable.parent_eq {fs : Filesystem} (directories : fs.directories = dirs)
    (entries : fs.dirEntries = dirEntries) {d e : Nat} (below : d < dirCount)
    (member : e ∈ entriesOf dirs dirEntries.length d) {child : UInt32}
    (names : childOf dirEntries e = child.toNat) (kind : fs.kind child = .ok .directory)
    (pos : 0 < child.toNat) (lt : child.toNat < dirCount) :
    fs.parent child = .ok (UInt32.ofNat d) := by
  obtain ⟨dir, here⟩ := table.row (Nat.le_of_lt lt)
  obtain ⟨parent, found⟩ := table.row (Nat.le_of_lt below)
  obtain ⟨entry, own, inode⟩ := table.ownEntry found below
  have link := table.parentLink child.toNat dir d parent e here pos lt found below member names
  unfold Filesystem.parent
  rw [kind, ok_bind, refuseIf_of_not (by simp), ok_bind, directories, here, okOr_some, ok_bind,
    entries, link, own, okOr_some, ok_bind, inode]
  rfl

/-- The root is its own parent. -/
theorem TreeTable.parent_root {fs : Filesystem} (directories : fs.directories = dirs)
    (entries : fs.dirEntries = dirEntries) (kind : fs.kind 0 = .ok .directory) :
    fs.parent 0 = .ok 0 := by
  obtain ⟨dir, here⟩ := table.row (Nat.zero_le _)
  obtain ⟨entry, own, inode⟩ := table.rootEntry
  unfold Filesystem.parent
  rw [kind, ok_bind, refuseIf_of_not (by simp), ok_bind, directories,
    show (0 : UInt32).toNat = 0 from rfl, here, okOr_some, ok_bind, entries,
    (table.root dir here).2.1, show (0 : UInt32).toNat = 0 from rfl, own, okOr_some, ok_bind, inode]
  rfl

end Tree

/-- Unpacking the packed form of the three tables gives the tables, and with them the
parent of every directory. -/
theorem unpack_packed (chunkTable : List UInt32) {dirs : List Directory}
    {dirEntries : List DirEntry} {dirCount : Nat} (table : TreeTable dirs dirEntries dirCount)
    {sharedFiles : List UInt32} {groups : Nat} (runs : GroupRuns sharedFiles groups) :
    inclusivePrefixSumU32 (packChunkTable chunkTable) = chunkTable ∧
    rebuildDirectoryLinks (unpackDirectoryFirstEntries (packDirectories dirs)) dirEntries = dirs ∧
    expandSharedFiles 0 (packSharedFiles sharedFiles groups) = .ok sharedFiles ∧
    ∀ fs : Filesystem,
      fs.directories =
        rebuildDirectoryLinks (unpackDirectoryFirstEntries (packDirectories dirs)) dirEntries →
      fs.dirEntries = dirEntries →
      (∀ inode : UInt32, fs.kind inode = .ok .directory ↔ inode.toNat < dirCount) →
      fs.parent 0 = .ok 0 ∧
      ∀ d e (child : UInt32), d < dirCount → e ∈ entriesOf dirs dirEntries.length d →
        childOf dirEntries e = child.toNat → fs.kind child = .ok .directory → child ≠ 0 →
        fs.parent child = .ok (UInt32.ofNat d) := by
  have rebuilt : rebuildDirectoryLinks (unpackDirectoryFirstEntries (packDirectories dirs))
      dirEntries = dirs := by
    rw [unpackDirectoryFirstEntries, packDirectories, unpackFirstEntriesFrom_pack]
    exact table.rebuild
  have expanded := expandSharedFiles_pack runs 0 groups (Nat.zero_add _)
  rw [runsFrom_eq runs, ← List.range_eq_range'] at expanded
  refine ⟨prefixSumFrom_deltasFrom 0 chunkTable, rebuilt, expanded, ?_⟩
  intro fs directories entries kinds
  rw [rebuilt] at directories
  refine ⟨table.parent_root directories entries ((kinds 0).mpr table.rooted), ?_⟩
  intro d e child below member names kind nonroot
  have pos : 0 < child.toNat := by
    have ne : child.toNat ≠ 0 := fun zero => nonroot (UInt32.toNat_inj.mp zero)
    omega
  exact table.parent_eq directories entries below member names kind pos ((kinds child).mp kind)

section Inputs

/-- The root holds directory 1, which holds directory 2, which holds a file. -/
def nested : List Directory := [⟨0, 1, 0⟩, ⟨0, 2, 1⟩, ⟨1, 3, 2⟩, ⟨0, 4, 0⟩]

def nestedEntries : List DirEntry := [⟨0, 0⟩, ⟨1, 1⟩, ⟨2, 2⟩, ⟨3, 3⟩]

theorem nested_child : ∀ e < 4, childOf nestedEntries e = e := by decide

theorem nested_entries : ∀ d < 3, entriesOf nested 4 d = [d + 1] := by decide

theorem nested_tree : TreeTable nested nestedEntries 3 where
  length := rfl
  rooted := by decide
  rootEntry := ⟨_, rfl, rfl⟩
  root := by
    rintro dir ⟨⟩
    decide
  sentinel := by
    rintro dir ⟨⟩
    decide
  ascending := by
    rintro (_ | _ | _ | d) dir next here there
    · cases here
      cases there
      decide
    · cases here
      cases there
      decide
    · cases here
      cases there
      decide
    · simp [nested] at there
  named := fun c pos lt =>
    ⟨c, pos, Nat.lt_succ_of_lt lt, nested_child c (Nat.lt_succ_of_lt lt)⟩
  once := by
    intro e e' _ lt _ lt' same _ _
    rwa [nested_child e lt, nested_child e' lt'] at same
  selfLink := by
    intro c dir e here pos below _ lt child
    obtain rfl : e = c := by rwa [nested_child e lt] at child
    rcases e with _ | _ | _ | e
    · omega
    · cases here
      rfl
    · cases here
      rfl
    · omega
  parentLink := by
    intro c child d dir e here pos lt there below member names
    obtain rfl : e = d + 1 := by
      rw [show nestedEntries.length = 4 from rfl, nested_entries d below] at member
      exact List.mem_singleton.mp member
    obtain rfl : d + 1 = c := by rwa [nested_child _ (by omega)] at names
    rcases d with _ | _ | d
    · cases here
      cases there
      rfl
    · cases here
      cases there
      rfl
    · omega

theorem nested_runs : GroupRuns [0, 0, 1, 1, 1] 2 where
  ascending := by simp
  inside := by simp
  shared := by decide
  ids := by decide
  slots := by decide

theorem unpack_packed_nested :
    inclusivePrefixSumU32 (packChunkTable [0, 2, 2, 5]) = [0, 2, 2, 5] ∧
    rebuildDirectoryLinks (unpackDirectoryFirstEntries (packDirectories nested)) nestedEntries =
      nested ∧
    expandSharedFiles 0 (packSharedFiles [0, 0, 1, 1, 1] 2) = .ok [0, 0, 1, 1, 1] := by
  obtain ⟨chunkTable, directories, sharedFiles, -⟩ :=
    unpack_packed [0, 2, 2, 5] nested_tree nested_runs
  exact ⟨chunkTable, directories, sharedFiles⟩

end Inputs

end Rdwarfs.Guarantees.PackedTables
