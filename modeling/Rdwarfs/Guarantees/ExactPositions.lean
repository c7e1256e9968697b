import Rdwarfs.Guarantees.ListOverruns

/-!
# Where the accessors read exactly

An accessor is exact when no addition leaves the word in a checked build and when what either
build returns is what unbounded positions give; a read in unbounded positions lies in the buffer
(`readU64_eq_ok`). Every accessor is exact, but those of struct and string lists only without an
overrun. The buffer is short: what a metadata section may decode to is capped far below `2 ^ 61`
bytes.
-/
namespace Rdwarfs.Guarantees.ExactPositions

open Lib.Machine Lib.Builds Source Source.Metadata FrozenArithmetic FrozenPositions NearAccessors
  ListOverruns

/-- The accessors of the metadata, with what they return. -/
inductive Accessor : Type → Type where
  | blockSize : Accessor UInt32
  | totalFsSize : Accessor UInt64
  | timestampBase : Accessor UInt64
  | preferredPathSeparator : Accessor (Option UInt32)
  | holeBlockIndex : Accessor (Option UInt32)
  | totalAllocatedFsSize : Accessor (Option UInt64)
  | words32 (id : Int16) : Accessor (List UInt32)
  | words64 (id : Int16) : Accessor (List UInt64)
  | blockCategories : Accessor (List UInt32)
  | sharedFilesTable : Accessor (List UInt32)
  | fsOptions : Accessor FsOptions
  | chunks : Accessor (List Chunk)
  | dirEntries : Accessor (List DirEntry)
  | inodes : Accessor (List InodeData)
  | directories : Accessor (List Directory)
  | optionalStrings (id : Int16) (name : String) : Accessor (List String)
  | strings (compact plain : Int16) : Accessor StringTable

namespace Accessor

variable {τ : Type}

/-- `words32` stands for uids, gids, modes and the chunk and symlink tables, `words64` for
devices and hole sizes, `optionalStrings` for features and category names, `strings` for names
and symlinks. -/
def read (m : Metadata) : Accessor τ → Result τ
  | .blockSize => m.blockSize
  | .totalFsSize => m.totalFsSize
  | .timestampBase => m.timestampBase
  | .preferredPathSeparator => m.preferredPathSeparator
  | .holeBlockIndex => m.holeBlockIndex
  | .totalAllocatedFsSize => m.totalAllocatedFsSize
  | .words32 id => m.readU32List id
  | .words64 id => m.readU64List id
  | .blockCategories => m.blockCategories
  | .sharedFilesTable => m.sharedFilesTable
  | .fsOptions => m.fsOptions
  | .chunks => m.chunks
  | .dirEntries => m.dirEntries
  | .inodes => m.inodes
  | .directories => m.directories
  | .optionalStrings id name => m.readOptionalStringList id name
  | .strings compact plain => m.readStrings compact plain

/-- Parse the metadata, then read. -/
def run (schema : Schema) (bytes : Bytes) (accessor : Accessor τ) (arith : Arith) : Result τ := do
  let m ← Metadata.parse arith schema bytes
  accessor.read m

/-- A struct of the list overruns, or the first string of it; a plain list of strings is only
read when there is no compact table. -/
def Overruns (m : Metadata) : Accessor τ → Prop
  | .chunks => StructOverrun m Ids.chunks [1, 2, 3]
  | .dirEntries => StructOverrun m Ids.dirEntries [1, 2]
  | .inodes => StructOverrun m Ids.inodes [2, 4, 5, 6, 7, 8, 9, 10, 11, 12, 13, 14]
  | .directories => StructOverrun m Ids.directories [1, 2, 3]
  | .optionalStrings id _ => StringOverrun m id
  | .strings compact plain => m.readStringTable compact = .ok none ∧ StringOverrun m plain
  | _ => False

end Accessor

section Structs

variable {m : Metadata}

theorem map_bind {α β γ : Type} (step : Result α) (next : α → Result β) (f : β → γ) :
    (step >>= next).map f = step >>= fun value => (next value).map f := by
  cases step <;> rfl

theorem tracks_readColumn (pos : Pos) (column : Column) :
    Tracks fun arith => (metadataIn m arith).readColumn pos column := by
  unfold Metadata.readColumn
  cases column.field with
  | none => exact .of_constant fun _ => rfl
  | some field => exact (tracks_child m.frozen pos field).bind fun at_ =>
      tracks_readIntegral m.frozen at_ _

theorem tracks_readColumnU32 (pos : Pos) (column : Column) :
    Tracks fun arith => (metadataIn m arith).readColumnU32 pos column :=
  (tracks_readColumn pos column).bind fun _ => .of_constant fun _ => rfl

theorem tracks_readColumnU64 (pos : Pos) (column : Column) :
    Tracks fun arith => (metadataIn m arith).readColumnU64 pos column :=
  (tracks_readColumn pos column).bind fun _ => .of_constant fun _ => rfl

variable (short : 8 * m.frozen.bytes.length < wordLimit)
include short

theorem tracks_chunks : Tracks fun arith => (metadataIn m arith).chunks := by
  unfold Metadata.chunks
  exact tracks_decodeStructList short _ (fun _ _ => rfl) fun columns pos =>
    (tracks_readColumnU32 pos columns.block).bind fun _ =>
    (tracks_readColumnU32 pos columns.offset).bind fun _ =>
    (tracks_readColumnU32 pos columns.size).bind fun _ => .of_constant fun _ => rfl

theorem tracks_dirEntries : Tracks fun arith => (metadataIn m arith).dirEntries := by
  unfold Metadata.dirEntries
  exact tracks_decodeStructList short _ (fun _ _ => rfl) fun columns pos =>
    (tracks_readColumnU32 pos columns.nameIndex).bind fun _ =>
    (tracks_readColumnU32 pos columns.inodeNum).bind fun _ => .of_constant fun _ => rfl

theorem tracks_directories : Tracks fun arith => (metadataIn m arith).directories := by
  unfold Metadata.directories
  exact tracks_decodeStructList short _ (fun _ _ => rfl) fun columns pos =>
    (tracks_readColumnU32 pos columns.parentEntry).bind fun _ =>
    (tracks_readColumnU32 pos columns.firstEntry).bind fun _ =>
    (tracks_readColumnU32 pos columns.selfEntry).bind fun _ => .of_constant fun _ => rfl

theorem tracks_inodes : Tracks fun arith => (metadataIn m arith).inodes := by
  unfold Metadata.inodes
  exact tracks_decodeStructList short _ (fun _ _ => rfl) fun columns pos =>
    (tracks_readColumnU32 pos columns.mode).bind fun _ =>
    (tracks_readColumnU32 pos columns.owner).bind fun _ =>
    (tracks_readColumnU32 pos columns.group).bind fun _ =>
    (tracks_readColumnU64 pos columns.atime).bind fun _ =>
    (tracks_readColumnU64 pos columns.mtime).bind fun _ =>
    (tracks_readColumnU64 pos columns.ctime).bind fun _ =>
    (tracks_readColumnU64 pos columns.btime).bind fun _ =>
    (tracks_readColumnU64 pos columns.atimeSubsec).bind fun _ =>
    (tracks_readColumnU64 pos columns.mtimeSubsec).bind fun _ =>
    (tracks_readColumnU64 pos columns.ctimeSubsec).bind fun _ =>
    (tracks_readColumnU64 pos columns.btimeSubsec).bind fun _ =>
    (tracks_readColumnU32 pos columns.nlink).bind fun _ => .of_constant fun _ => rfl

theorem chunks_eq_panicked :
    (metadataIn m (.machine .checked)).chunks = panicked ↔
      StructOverrun (metadataIn m .exact) Ids.chunks [1, 2, 3] := by
  refine decodeStructList_eq_panicked short (fun c => [c.block, c.offset, c.size])
    (fun layout => ?_) fun columns => .u32 fun _ => .u32 fun _ => .u32 fun _ => .done _
  simp only [map_bind, collect, bind_assoc, ok_bind]
  rfl

theorem dirEntries_eq_panicked :
    (metadataIn m (.machine .checked)).dirEntries = panicked ↔
      StructOverrun (metadataIn m .exact) Ids.dirEntries [1, 2] := by
  refine decodeStructList_eq_panicked short (fun c => [c.nameIndex, c.inodeNum])
    (fun layout => ?_) fun columns => .u32 fun _ => .u32 fun _ => .done _
  simp only [map_bind, collect, bind_assoc, ok_bind]
  rfl

theorem directories_eq_panicked :
    (metadataIn m (.machine .checked)).directories = panicked ↔
      StructOverrun (metadataIn m .exact) Ids.directories [1, 2, 3] := by
  refine decodeStructList_eq_panicked short (fun c => [c.parentEntry, c.firstEntry, c.selfEntry])
    (fun layout => ?_) fun columns => .u32 fun _ => .u32 fun _ => .u32 fun _ => .done _
  simp only [map_bind, collect, bind_assoc, ok_bind]
  rfl

theorem inodes_eq_panicked :
    (metadataIn m (.machine .checked)).inodes = panicked ↔
      StructOverrun (metadataIn m .exact) Ids.inodes [2, 4, 5, 6, 7, 8, 9, 10, 11, 12, 13, 14] := by
  refine decodeStructList_eq_panicked short (fun c => [c.mode, c.owner, c.group, c.atime, c.mtime,
    c.ctime, c.btime, c.atimeSubsec, c.mtimeSubsec, c.ctimeSubsec, c.btimeSubsec, c.nlink])
    (fun layout => ?_) fun columns => .u32 fun _ => .u32 fun _ => .u32 fun _ => .u64 fun _ =>
      .u64 fun _ => .u64 fun _ => .u64 fun _ => .u64 fun _ => .u64 fun _ => .u64 fun _ =>
      .u64 fun _ => .u32 fun _ => .done _
  simp only [map_bind, collect, bind_assoc, ok_bind]
  rfl

end Structs

section Strings

variable {m : Metadata} (short : 8 * m.frozen.bytes.length < wordLimit)
include short

/-- Whether there is a compact table is read near the root. -/
theorem readStringTable_eq_none {id : Int16} :
    (metadataIn m (.machine .checked)).readStringTable id = .ok none ↔
      (metadataIn m .exact).readStringTable id = .ok none := by
  have sound := sound_readStringTable short id
  refine ⟨fun absent => (sound.tracks.resolve_left (sound.settles _).1).2 _ absent, fun absent => ?_⟩
  obtain ⟨view, found, absent⟩ := bind_eq_ok.mp absent
  refine bind_eq_ok.mpr ⟨view, (fixed_field id _).trans found, ?_⟩
  rcases view with _ | ⟨field, pos⟩
  · rfl
  have within := ((sound_field id).settles _).2 _ found field pos rfl
  obtain ⟨outer, own, absent⟩ := bind_eq_ok.mp absent
  obtain ⟨kind, classified, absent⟩ := bind_eq_ok.mp absent
  refine bind_eq_ok.mpr ⟨outer, own, bind_eq_ok.mpr ⟨kind, classified, ?_⟩⟩
  cases kind with
  | optional value =>
    obtain ⟨opt, read, absent⟩ := bind_eq_ok.mp absent
    have same := fixed_readOptional short within (by decide) outer (.machine .checked)
    refine bind_eq_ok.mpr ⟨opt, same.trans read, ?_⟩
    by_cases set : opt.present = true
    · rw [if_neg (by simpa using set)] at absent
      cases value with
      | none => cases absent
      | some id =>
        simp only [bind_eq_ok, pure_eq_ok, Except.ok.injEq, reduceCtorEq, and_false,
          exists_false] at absent
    · rw [if_pos set]
      rfl
  | _ => cases absent

theorem tracks_readStrings (compact plain : Int16) :
    Tracks fun arith => (metadataIn m arith).readStrings compact plain := by
  refine (sound_readStringTable short compact).tracks.bind fun table => ?_
  cases table with
  | none => exact tracks_readPlainStringList short plain
  | some table => exact .of_constant fun _ => rfl

theorem readStrings_eq_panicked (compact plain : Int16) :
    (metadataIn m (.machine .checked)).readStrings compact plain = panicked ↔
      (metadataIn m .exact).readStringTable compact = .ok none ∧
        StringOverrun (metadataIn m .exact) plain := by
  rw [← readStringTable_eq_none short, ← readPlainStringList_eq_panicked short]
  have calm := ((sound_readStringTable short compact).settles (.machine .checked)).1
  unfold Metadata.readStrings
  constructor
  · intro stopped
    rcases bind_eq_panicked.mp stopped with early | ⟨table, read, stopped⟩
    · exact absurd early calm
    · cases table with
      | none => exact ⟨read, stopped⟩
      | some table => cases stopped
  · rintro ⟨absent, stopped⟩
    rw [absent, ok_bind, stopped]

end Strings

section Exact

variable {τ : Type}

/-- A checked accessor panics exactly on an overrun, and all of them track. -/
theorem Accessor.tracks_read {m : Metadata} (short : 8 * m.frozen.bytes.length < wordLimit)
    (accessor : Accessor τ) :
    (Tracks fun arith => accessor.read (metadataIn m arith)) ∧
      (accessor.read (metadataIn m (.machine .checked)) = panicked ↔
        accessor.Overruns (metadataIn m .exact)) := by
  have of_sound {τ : Type} {run : Arith → Result τ} (sound : Sound run fun _ => True) :
      Tracks run ∧ (run (.machine .checked) = panicked ↔ False) :=
    ⟨sound.tracks, iff_of_false (sound.settles _).1 id⟩
  have finished {α β : Type} {run : Arith → Result α} {finish : α → Result β}
      (sound : Sound run fun _ => True) (calm : ∀ value, finish value ≠ panicked) :
      Sound (fun arith => run arith >>= finish) fun _ => True :=
    sound.bind fun value _ => .of_constant (fun _ => rfl) ⟨calm value, fun _ _ => trivial⟩
  cases accessor with
  | blockSize => exact of_sound (finished (sound_readInt short _) fun _ => (settles_u32Of ..).1)
  | totalFsSize => exact of_sound (finished (sound_readInt short _) fun _ => by simp)
  | timestampBase => exact of_sound (finished (sound_readInt short _) fun _ => by simp)
  | preferredPathSeparator => exact of_sound (sound_readOptionalU32 short _ _)
  | holeBlockIndex => exact of_sound (sound_readOptionalU32 short _ _)
  | totalAllocatedFsSize =>
    exact of_sound (finished (sound_readOptionalInt short _) fun _ => by simp)
  | words32 id => exact of_sound (sound_readU32List short id)
  | words64 id => exact of_sound (sound_readU64List short id)
  | blockCategories => exact of_sound (sound_blockCategories short)
  | sharedFilesTable => exact of_sound (sound_sharedFilesTable short)
  | fsOptions => exact of_sound (sound_fsOptions short)
  | chunks => exact ⟨tracks_chunks short, chunks_eq_panicked short⟩
  | dirEntries => exact ⟨tracks_dirEntries short, dirEntries_eq_panicked short⟩
  | inodes => exact ⟨tracks_inodes short, inodes_eq_panicked short⟩
  | directories => exact ⟨tracks_directories short, directories_eq_panicked short⟩
  | optionalStrings id name =>
    exact ⟨tracks_readOptionalStringList short id name,
      readOptionalStringList_eq_panicked short id name⟩
  | strings compact plain =>
    exact ⟨tracks_readStrings short compact plain, readStrings_eq_panicked short compact plain⟩

/-- An accessor is exact unless an element of its list overruns. -/
theorem accessor_exact_iff (schema : Schema) (bytes : Bytes) (accessor : Accessor τ)
    (short : 8 * bytes.length < wordLimit) :
    Exact (accessor.run schema bytes) ↔
      ¬ ∃ m, Metadata.parse .exact schema bytes = .ok m ∧ accessor.Overruns m := by
  cases found : schema.root with
  | error failure =>
    have stopped (arith : Arith) : accessor.run schema bytes arith = .error failure := by
      simp only [Accessor.run, Metadata.parse, found, error_bind]
    have refused : failure ≠ .panic := fun same => (settles_okOr ..).1 (same ▸ found)
    refine iff_of_true ⟨?_, fun build value returned => ?_⟩ ?_
    · simpa only [stopped, ne_eq, Except.error.injEq] using refused
    · rw [stopped] at returned
      cases returned
    · simp [Metadata.parse, found]
  | ok root =>
    obtain ⟨tracks, panics⟩ := accessor.tracks_read (m := ⟨⟨.exact, schema, bytes⟩, root⟩) short
    have read (arith : Arith) : accessor.run schema bytes arith =
        accessor.read (metadataIn ⟨⟨.exact, schema, bytes⟩, root⟩ arith) := by
      simp only [Accessor.run, Metadata.parse, found, ok_bind]
      rfl
    rw [← funext read] at tracks
    rw [tracks.exact_iff, read, Ne, panics]
    refine not_congr ⟨fun overrun => ⟨_, ?_, overrun⟩, fun ⟨m, parsed, overrun⟩ => ?_⟩
    · simp only [Metadata.parse, found, ok_bind]
      rfl
    · simp only [Metadata.parse, found, ok_bind, pure_eq_ok, Except.ok.injEq] at parsed
      subst parsed
      exact overrun

/-- A list of chunks with an eight-byte distance and a one-byte count; the items take one byte
and keep their block eight bytes on. -/
def distantSchema : Bytes := [
  43, 5, 76, 0, 21, 16, 20, 128, 1, 0, 2, 21, 2, 20, 16, 0, 4, 21, 2, 43, 1, 76, 2, 20, 2, 20, 16,
  0, 0, 6, 59, 3, 76, 2, 0, 4, 20, 2, 20, 16, 0, 6, 20, 4, 0, 0, 8, 59, 1, 76, 2, 20, 6, 0, 0, 20,
  8, 21, 2, 0]

def distant : Schema where
  fileVersion := 1
  relaxTypeChecks := false
  layouts := [(4, ⟨0, 0, [(1, ⟨3, 0⟩)], ""⟩), (3, ⟨0, 0, [(3, ⟨2, 0⟩), (2, ⟨1, 8⟩), (1, ⟨0, 0⟩)], ""⟩),
    (2, ⟨1, 0, [(1, ⟨1, 8⟩)], ""⟩), (1, ⟨1, 8, [], ""⟩), (0, ⟨8, 64, [], ""⟩)]
  rootLayout := 4

/-- A distance of `2 ^ 64 - 8` and a count of one. -/
def distantBytes : Bytes := [248, 255, 255, 255, 255, 255, 255, 255, 1]

theorem accessor_exact_distant :
    Exact (Accessor.chunks.run distant distantBytes) ↔
      ¬ ∃ m, Metadata.parse .exact distant distantBytes = .ok m ∧ Accessor.chunks.Overruns m :=
  accessor_exact_iff distant distantBytes .chunks (by decide)

/-- The block of the only chunk lies at byte `2 ^ 64`: a checked build panics, and a wrapping one
returns the first byte of the distance for it. -/
theorem accessor_exact_fails :
    Schema.parse distantSchema = .ok distant ∧
      Accessor.chunks.run distant distantBytes (.machine .checked) = panicked ∧
      Accessor.chunks.run distant distantBytes (.machine .wrapping) = .ok [⟨248, 0, 0⟩] ∧
      (∀ value, Accessor.chunks.run distant distantBytes .exact ≠ .ok value) ∧
      ¬ Exact (Accessor.chunks.run distant distantBytes) := by
  have stopped : Accessor.chunks.run distant distantBytes (.machine .checked) = panicked := by
    decide
  have refused : Accessor.chunks.run distant distantBytes .exact = fail (bitbufError
      "read of 8 bits at 147573952589676412928 runs past end (72 bits)") := by
    decide
  refine ⟨by decide +kernel, stopped, by decide +kernel, fun value returned => ?_,
    fun exact => exact.1 stopped⟩
  rw [refused] at returned
  cases returned

end Exact

end Rdwarfs.Guarantees.ExactPositions
