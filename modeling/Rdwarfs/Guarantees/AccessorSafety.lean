import Rdwarfs.Guarantees.BorrowedReads
import Rdwarfs.Guarantees.CodecOutcomes
import Rdwarfs.Guarantees.ReadContract
import Rdwarfs.Source.Fs.Lookup
import Rdwarfs.Source.Fs.Stat

/-!
# No accessor of an opened filesystem panics

The tables may hold anything. What `open` has checked is enough: the class boundaries stand
in order and none lies behind an inode of its class, and the derived chunk ends run upwards
inside each file. Everything else an accessor uses it checks itself.
-/
namespace Rdwarfs.Guarantees.AccessorSafety

open Lib.Machine Lib.Builds Lib.Oracle Lib.Oracle.Prog Source Source.Format Source.Metadata
open Source.Fs Source.Codecs CacheAccounting BorrowedReads ChunkEnds CodecOutcomes OpenedFilesystem
open ReadContract

section Boundaries

variable {modes : List UInt32} {inodes : List InodeData} {start : Nat}
  {first final : Partition → Nat}

/-- A boundary that is set is not moved. -/
theorem scanInodes_keeps (scanned : scanInodes modes inodes start first = .ok final)
    {part : Partition} (set_ : first part ≠ u32Max) : final part = first part := by
  induction inodes generalizing start first with
  | nil =>
    cases scanned
    rfl
  | cons inode rest ih =>
    simp only [scanInodes, bind_eq_ok] at scanned
    obtain ⟨mode, _, scanned⟩ := scanned
    split at scanned
    · rename_i own _
      split at scanned
      · rename_i unset
        have ne : part ≠ own := fun same => set_ (same ▸ unset)
        have kept := ih scanned (by rwa [Function.update_of_ne ne])
        rwa [Function.update_of_ne ne] at kept
      · exact ih scanned set_
    · exact ih scanned set_

/-- No boundary lies behind an inode of its class, as far as indices are words. -/
theorem scanInodes_le (scanned : scanInodes modes inodes start first = .ok final)
    {part : Partition} (before : first part = u32Max ∨ first part ≤ start) {k : Nat}
    {inode : InodeData} (here : inodes[k]? = some inode) {mode : UInt32}
    (known : modes[inode.modeIndex.toNat]? = some mode)
    (member : (modeKind mode).partition = some part) (word : start + k < u32Max) :
    final part ≤ start + k := by
  induction inodes generalizing start first k with
  | nil => cases here
  | cons head rest ih =>
    cases k with
    | zero =>
      cases here
      simp only [scanInodes, known, okOr_some, ok_bind, member] at scanned
      by_cases unset : first part = u32Max
      · have idx : start % 2 ^ 32 = start := Nat.mod_eq_of_lt (by rw [u32Max] at word; omega)
        rw [if_pos unset, idx] at scanned
        have kept : final part = _ := scanInodes_keeps scanned (by simp; omega)
        rw [kept, Function.update_self]
        omega
      · rw [if_neg unset] at scanned
        rw [scanInodes_keeps scanned unset]
        exact before.resolve_left unset
    | succ k =>
      have onward : ∀ {next : Partition → Nat}, (next part = u32Max ∨ next part ≤ start + 1) →
          scanInodes modes rest (start + 1) next = .ok final → final part ≤ start + (k + 1) := by
        intro next near scanned
        have le := ih scanned near here (by omega)
        omega
      have wider : first part = u32Max ∨ first part ≤ start + 1 :=
        before.imp_right fun le => Nat.le_succ_of_le le
      simp only [scanInodes, bind_eq_ok] at scanned
      obtain ⟨_, _, scanned⟩ := scanned
      split at scanned
      · rename_i own _
        split at scanned
        · refine onward ?_ scanned
          by_cases same : part = own
          · subst same
            rw [Function.update_self]
            exact Or.inr (Nat.le_trans (Nat.mod_le _ _) (Nat.le_succ _))
          · rwa [Function.update_of_ne same]
        · exact onward wider scanned
      · exact onward wider scanned

/-- What `compute_offsets` has made sure of. -/
theorem computeOffsets_bounds {shared : Nat} {offsets : InodeOffsets}
    (computed : computeOffsets inodes modes shared = .ok offsets) :
    offsets.fileOffset ≤ offsets.sharedFileOffset ∧ offsets.sharedFileOffset < 2 ^ 32 ∧
      ∀ (i : UInt32) inode mode, inodes[i.toNat]? = some inode →
        modes[inode.modeIndex.toNat]? = some mode → modeKind mode = .symlink →
        offsets.symlinkOffset ≤ i.toNat := by
  simp only [computeOffsets, bind_eq_ok, refuseIf_eq_ok, pure_eq_ok, Except.ok.injEq] at computed
  obtain ⟨first, scanned, _, _, _, fits, rfl⟩ := computed
  have total : inodes.length % 2 ^ 32 < 2 ^ 32 := Nat.mod_lt _ (by omega)
  refine ⟨by simp only; omega, by simp only; omega, ?_⟩
  intro i inode mode here known link
  have word := i.toNat_lt
  simp only
  by_cases last : i.toNat = u32Max
  · rw [last, u32Max]
    omega
  · have le : first .symlink ≤ 0 + i.toNat := scanInodes_le scanned (Or.inl rfl) here known
      (by rw [link]; rfl) (by rw [u32Max] at *; omega)
    rw [if_neg (by rw [u32Max] at *; omega)]
    omega

end Boundaries

section Accessors

variable {fs : Filesystem}

theorem settles_kind (inode : UInt32) : Settles (fs.kind inode) fun kind =>
    ∃ info mode, fs.inodes[inode.toNat]? = some info ∧
      fs.modes[info.modeIndex.toNat]? = some mode ∧ modeKind mode = kind := by
  have indexed : Settles (fs.inodeIndex inode) fun i => i = inode.toNat ∧ i < fs.inodes.length :=
    (settles_refuseIf _ _).bind fun _ inside => settles_ok ⟨rfl, Nat.lt_of_not_le inside⟩
  have moded : Settles (fs.modeOf inode) fun mode =>
      ∃ info, fs.inodes[inode.toNat]? = some info ∧
        fs.modes[info.modeIndex.toNat]? = some mode := by
    refine indexed.bind fun i ⟨same, inside⟩ => ?_
    refine (settles_index inside).bind fun info here => ?_
    exact (settles_okOr _ _).mono fun mode known => ⟨info, same ▸ here, known⟩
  exact moded.bind fun mode ⟨info, here, known⟩ => settles_ok ⟨info, mode, here, known, rfl⟩

theorem settles_entryName (index : UInt32) : Settles (fs.entryName index) fun _ => True :=
  (settles_okOr _ _).mono fun _ _ => trivial

theorem settles_dirEntryRange (d : UInt32) : Settles (fs.dirEntryRange d) fun range =>
    range.1 ≤ range.2 ∧ range.2 ≤ fs.dirEntries.length := by
  refine (settles_refuseIf _ _).bind fun _ inside => ?_
  refine (settles_index (Nat.lt_of_not_le inside)).bind fun dir _ => ?_
  refine (settles_refuseIf _ _).bind fun _ fits => settles_ok ?_
  constructor <;> simp only <;> omega

theorem settles_readDir (d : UInt32) : Settles (fs.readDir d) fun _ => True := by
  refine (settles_kind d).bind fun kind _ => (settles_refuseIf _ _).bind fun _ _ => ?_
  refine (settles_dirEntryRange d).bind fun range ⟨ordered, inside⟩ => ?_
  refine .collect fun i member => ?_
  have bound : i < fs.dirEntries.length := by
    have := List.mem_range'_1.mp member
    omega
  refine (settles_index bound).bind fun entry _ => ?_
  refine (settles_entryName _).bind fun name _ => ?_
  exact (settles_kind _).bind fun kind _ => settles_ok trivial

theorem settles_lookupChild (d : UInt32) (name : Bytes) :
    Settles (fs.lookupChild d name) fun _ => True := by
  refine (settles_kind d).bind fun kind _ => (settles_refuseIf _ _).bind fun _ _ => ?_
  refine (settles_dirEntryRange d).bind fun range ⟨ordered, inside⟩ => ⟨?_, fun _ _ => trivial⟩
  apply Lib.Bisect.find_ne_panicked
  intro i _ high
  have probed : Settles (fs.compareEntry name i) fun _ => True := by
    refine (settles_index (Nat.lt_of_lt_of_le high inside)).bind fun entry _ => ?_
    exact (settles_entryName _).bind fun own _ => settles_ok trivial
  exact probed.1

theorem settles_parent (inode : UInt32) : Settles (fs.parent inode) fun _ => True := by
  refine (settles_kind inode).bind fun kind _ => (settles_refuseIf _ _).bind fun _ _ => ?_
  refine (settles_okOr _ _).bind fun dir _ => (settles_okOr _ _).bind fun entry _ => ?_
  exact settles_ok trivial

theorem settles_deviceRdev (inode : UInt32) : Settles (fs.deviceRdev inode) fun _ => True := by
  refine (settles_kind inode).bind fun kind _ => (settles_refuseIf _ _).bind fun _ _ => ?_
  refine (settles_refuseIf _ _).bind fun _ _ => ?_
  exact (settles_okOr _ _).mono fun _ _ => trivial

variable (derived : Derived fs)

include derived

theorem settles_chunkTableSlot (inode : UInt32) :
    Settles (fs.chunkTableSlot inode) (· < 2 ^ 33) := by
  obtain ⟨ordered, word, _⟩ := computeOffsets_bounds derived.offsets
  have inodeWord := inode.toNat_lt
  refine (settles_subWord ordered).bind fun numUnique unique => Settles.ite ?_ ?_
  · intro before
    exact (settles_refuseIf _ _).bind fun _ _ => settles_ok (by omega)
  · intro _
    refine (settles_okOr _ _).bind fun group _ => (settles_okOr _ _).mono fun slot sum => ?_
    have groupWord := group.toNat_lt
    obtain ⟨_, rfl⟩ := checkedAddWord_eq_some.mp sum
    omega

theorem settles_contentId (inode : UInt32) : Settles (fs.contentId inode) fun _ => True :=
  (settles_chunkTableSlot derived inode).bind fun _ _ =>
    (settles_refuseIf _ _).bind fun _ _ => settles_ok trivial

theorem settles_chunkRange (inode : UInt32) : Settles (fs.chunkRange inode) fun range =>
    range.1 ≤ range.2 ∧ range.2 ≤ fs.chunkEnd.length := by
  have total := buildChunkEnds_length derived.chunkEnd
  refine (settles_chunkTableSlot derived inode).bind fun slot small => ?_
  refine (settles_addWord (by rw [wordLimit_eq]; omega)).bind fun next same => ?_
  subst same
  refine (settles_refuseIf _ _).bind fun _ inside => ?_
  refine (settles_index (by omega)).bind fun start _ => ?_
  refine (settles_index (by omega)).bind fun stop _ => ?_
  refine (settles_refuseIf _ _).bind fun _ fits => settles_ok ?_
  constructor <;> simp only <;> omega

theorem settles_fileSize (inode : UInt32) : Settles (fs.fileSize inode) fun _ => True := by
  refine (settles_kind inode).bind fun kind _ => Settles.ite (fun _ => settles_ok trivial) fun _ => ?_
  refine (settles_chunkRange derived inode).bind fun range ⟨ordered, inside⟩ => ?_
  refine Settles.ite (fun some_ => ?_) fun _ => settles_ok trivial
  exact (settles_index (by omega)).mono fun _ _ => trivial

theorem settles_readLink (inode : UInt32) : Settles (fs.readLink inode) fun _ => True := by
  obtain ⟨_, _, links⟩ := computeOffsets_bounds derived.offsets
  refine (settles_kind inode).bind fun kind ⟨info, mode, here, known, own⟩ => ?_
  refine (settles_refuseIf _ _).bind fun _ link => ?_
  have symlink : modeKind mode = .symlink := own.trans (Decidable.not_not.mp link)
  refine (settles_subWord (links inode info mode here known symlink)).bind fun slot _ => ?_
  refine (settles_okOr _ _).bind fun value _ => ?_
  exact (settles_okOr _ _).mono fun _ _ => trivial

theorem settles_stat (inode : UInt32) : Settles (fs.stat inode) fun _ => True := by
  have indexed : Settles (fs.inodeIndex inode) (· < fs.inodes.length) :=
    (settles_refuseIf _ _).bind fun _ inside => settles_ok (Nat.lt_of_not_le inside)
  have timestamp : ∀ offset, Settles (fs.timestamp offset) fun _ => True := fun offset =>
    (settles_okOr _ _).bind fun _ _ => (settles_okOr _ _).mono fun _ _ => trivial
  have others : ∀ info mtime, Settles (fs.otherTimes info mtime) fun _ => True := fun info mtime =>
    Settles.ite (fun _ => settles_ok trivial) fun _ =>
      (timestamp _).bind fun _ _ => (timestamp _).bind fun _ _ => settles_ok trivial
  have size : ∀ kind, Settles (fs.statSize inode kind) fun _ => True := fun kind =>
    Settles.ite (fun _ => settles_fileSize derived inode) fun _ => settles_ok trivial
  have rdev : ∀ kind, Settles (fs.statRdev inode kind) fun _ => True := by
    intro kind
    refine Settles.ite (fun _ => ⟨?_, fun _ _ => trivial⟩) fun _ => settles_ok trivial
    have settled := (@settles_deviceRdev fs inode).1
    unfold unwrapOr
    split
    · simp
    · exact settled
  refine indexed.bind fun i inside => (settles_index inside).bind fun info _ => ?_
  refine (settles_okOr _ _).bind fun mode _ => ?_
  refine (settles_okOr _ _).bind fun uid _ => (settles_okOr _ _).bind fun gid _ => ?_
  refine (timestamp _).bind fun mtime _ => (others info mtime).bind fun times _ => ?_
  exact (size _).bind fun _ _ => (rdev _).bind fun _ _ => settles_ok trivial

end Accessors

section Reads

variable {fs : Filesystem}

/-- An answer that is no panic. -/
def Calm {Q A : Type} (_ : Q) (answer : Result A) : Prop := answer ≠ panicked

theorem settles_visit {offset wantEnd room i cursor len : Nat} {chunk : Chunk}
    (chunkAt : fs.chunks[i]? = some chunk) (endAt : fs.chunkEnd[i]? = some (cursor + len))
    (length : fs.chunkLogicalLen chunk = .ok len) (word : cursor + len < wordLimit)
    (ordered : offset ≤ wantEnd) :
    Settles (fs.visit offset wantEnd room i) fun visited =>
      ∀ block blockStart blockEnd, visited = .copy block blockStart blockEnd →
        blockStart ≤ blockEnd := by
  rw [visit_eq chunkAt endAt length word ordered]
  apply settles_ok
  intro block blockStart blockEnd
  repeat' split
  all_goals simp only [reduceCtorEq, false_imp_iff, Filesystem.Visit.copy.injEq]
  rintro ⟨rfl, rfl, rfl⟩
  omega

/-- What the read loop needs of a chunk index. -/
def Placed (fs : Filesystem) (i : Nat) : Prop :=
  ∃ chunk cursor len, fs.chunks[i]? = some chunk ∧ fs.chunkEnd[i]? = some (cursor + len) ∧
    fs.chunkLogicalLen chunk = .ok len ∧ cursor + len < wordLimit

theorem placed_of_runs {cursor i : Nat} {chunks restChunks : List Chunk}
    {ends restEnds : List Nat} (runs : Runs fs.chunkLogicalLen cursor chunks ends)
    (chunksAt : fs.chunks.drop i = chunks ++ restChunks)
    (endsAt : fs.chunkEnd.drop i = ends ++ restEnds) :
    ∀ j, i ≤ j → j < i + ends.length → Placed fs j := by
  induction runs generalizing i with
  | nil => simp; omega
  | @cons cursor len chunk chunks ends here word rest ih =>
    intro j low high
    rw [List.length_cons] at high
    rcases Nat.eq_or_lt_of_le low with rfl | later
    · refine ⟨chunk, cursor, len, ?_, ?_, here, word⟩
      · have first := congrArg (·[0]?) chunksAt
        simpa using first
      · have first := congrArg (·[0]?) endsAt
        simpa using first
    · refine @ih (i + 1) ?_ ?_ j later (by omega)
      · rw [← List.tail_drop, chunksAt]
        rfl
      · rw [← List.tail_drop, endsAt]
        rfl

theorem reach_calm {α : Type} {held : Option (UInt32 × Bytes)} {query : BlockQuery}
    {next : Bytes → Reading α} (onward : ∀ bytes result, Yields Calm (next bytes) result →
      result ≠ panicked) :
    ∀ result, Yields Calm (Filesystem.reach held query >>= next) result → result ≠ panicked := by
  rcases Filesystem.reach_cases held query next with asks | ⟨bytes, -, -, here⟩
  · rw [asks, question_bind]
    intro result yields
    cases yields with
    | answer _ rest => exact onward _ _ rest
    | failure permitted => simpa [Calm] using permitted
  · rw [here]
    exact onward bytes

/-- The read loop, over indices that all have their place. -/
theorem readChunks_calm {offset wantEnd : Nat} (ordered : offset ≤ wantEnd) {indices : List Nat}
    (placed : ∀ i ∈ indices, Placed fs i) (written remaining : Bytes)
    (held : Option (UInt32 × Bytes)) :
    ∀ result, Yields Calm (fs.readChunks offset wantEnd indices written remaining held) result →
      result ≠ panicked := by
  induction indices generalizing written remaining held with
  | nil =>
    rintro _ ⟨⟩
    simp
  | cons i rest ih =>
    have onward := ih fun j member => placed j (List.mem_cons_of_mem i member)
    obtain ⟨chunk, cursor, len, chunkAt, endAt, length, word⟩ := placed i (by simp)
    have settled := @settles_visit fs offset wantEnd remaining.length i cursor len chunk chunkAt
      endAt length word ordered
    rw [Filesystem.readChunks]
    split
    · rintro _ ⟨⟩
      simp
    · cases visited : fs.visit offset wantEnd remaining.length i with
      | error failure =>
        rintro _ ⟨⟩
        rw [visited] at settled
        simpa using settled.1
      | ok step =>
        rw [lift_ok_bind]
        cases step with
        | stop =>
          rintro _ ⟨⟩
          simp
        | skip => exact onward _ _ _
        | zeros take => exact onward _ _ _
        | copy block blockStart blockEnd =>
          apply reach_calm
          intro bytes result yields
          have window : Settles (Filesystem.copyWindow bytes blockStart blockEnd) fun _ => True :=
            (settles_refuseIf _ _).bind fun _ inside =>
              (settles_slice (settled.2 _ visited _ _ _ rfl) (Nat.le_of_not_lt inside)).mono
                fun _ _ => trivial
          cases copied : Filesystem.copyWindow bytes blockStart blockEnd with
          | error failure =>
            rw [copied] at yields window
            cases yields
            simpa using window.1
          | ok src =>
            rw [copied, lift_ok_bind] at yields
            exact onward _ _ _ _ yields

theorem yields_lift {α β : Type} {run : Result α} {next : α → Reading β} {post : α → Prop}
    (settles : Settles run post)
    (onward : ∀ value, post value → ∀ result, Yields Calm (next value) result → result ≠ panicked) :
    ∀ result, Yields Calm (Prog.lift run >>= next) result → result ≠ panicked := by
  intro result yields
  cases returned : run with
  | error failure =>
    rw [returned] at yields settles
    cases yields
    simpa using settles.1
  | ok value =>
    rw [returned, lift_ok_bind] at yields
    exact onward value (settles.2 value returned) result yields

/-- Whatever blocks it is handed, `read_into` returns. -/
theorem readInto_calm (derived : Derived fs) (inode : UInt32) (offset : UInt64) (buf : Bytes) :
    ∀ result, Yields Calm (fs.readInto inode offset.toNat buf) result → result ≠ panicked := by
  have word := offset.toNat_lt
  have wantEnd := saturatingAddWord_eq offset.toNat buf.length
  refine yields_lift (settles_kind inode) fun kind _ => ?_
  refine yields_lift (settles_refuseIf _ _) fun _ _ => ?_
  have range : Settles (fs.chunkRange inode) fun range => fs.chunkRange inode = .ok range :=
    ⟨(settles_chunkRange derived inode).1, fun _ returned => returned⟩
  refine yields_lift range fun ⟨start, stop⟩ accepted => ?_
  obtain ⟨ends, runs, window, count, le, inside⟩ := runs_of_chunkRange derived accepted
  have covering : Settles (fs.chunksCovering start stop offset.toNat) fun covering =>
      ∀ i ∈ covering, start ≤ i ∧ i < stop := by
    refine (settles_slice le inside).bind fun _ _ => settles_ok fun i member => ?_
    have := List.mem_range'_1.mp member
    omega
  refine yields_lift covering fun covering bounds result yields => ?_
  have endsAt : fs.chunkEnd.drop start = ends ++ (fs.chunkEnd.drop start).drop (stop - start) := by
    rw [← window, List.take_append_drop]
  have placed : ∀ i ∈ covering, Placed fs i := by
    intro i member
    obtain ⟨low, high⟩ := bounds i member
    exact placed_of_runs runs (List.take_append_drop _ _).symm endsAt i low (by omega)
  have ordered : offset.toNat ≤ saturatingAddWord offset.toNat buf.length := by
    rw [wordLimit_eq] at wantEnd
    omega
  rcases yields_bind yields with ⟨value, _, done⟩ | ⟨failure, loop, rfl⟩
  · cases done
    simp
  · exact fun stuck => readChunks_calm ordered placed [] buf none _ loop (by simpa using stuck)

/-- Decoding a block returns if the codecs do, and they are never asked for more than a block. -/
theorem decodeRecord_calm {libs : Libraries} {bytes : Bytes}
    (serves : fs.image.source.Serves bytes) (short : bytes.length < sliceLimit)
    (codecs : CodecsReturn libs fs.blockSize.toNat)
    (query : BlockQuery) (retryInFull : Bool) :
    fs.decodeRecord libs query retryInFull ≠ panicked := by
  have section_ : ∀ record : SectionRecord, Settles (fs.image.sectionBytes record) fun read =>
      headerLen ≤ read.length := by
    intro record
    have long := record.header.headerLen_le_sectionLen
    by_cases inside : record.fileOffset + record.header.sectionLen ≤ bytes.length
    · unfold Image.sectionBytes Image.readRange
      rw [serves.readRange short inside]
      apply settles_ok
      rw [field, List.length_take, List.length_drop]
      omega
    · refine (settles_okOr _ _).bind fun stop sum => ?_
      obtain ⟨_, rfl⟩ := checkedAddWord_eq_some.mp sum
      have beyond : record.fileOffset + record.header.sectionLen > fs.image.source.len := by
        rw [serves.len_eq]
        exact Nat.lt_of_not_le inside
      rw [refuseIf_of beyond]
      exact settles_fail _ _
  have verified : ∀ (record : SectionRecord) (read : Bytes), headerLen ≤ read.length →
      Settles (Image.verifyXxh3 libs record.header read) fun _ => True := by
    intro record read long
    refine (settles_slice ?_ (Nat.le_refl _)).bind fun covered _ => ?_
    · exact Nat.le_trans (by decide) long
    · exact Settles.ite (fun _ => settles_ok trivial) fun _ => settles_fail _ _
  have full : ∀ record, Settles (fs.image.decompressSection libs record fs.blockSize.toNat)
      fun _ => True := by
    intro record
    refine (section_ record).bind fun read long => (verified record read long).bind fun _ _ => ?_
    exact (settles_slice long (Nat.le_refl _)).bind fun _ _ =>
      ⟨codecs.decompress _ _ (Nat.le_refl _), fun _ _ => trivial⟩
  have front : ∀ record want, want ≤ fs.blockSize.toNat →
      Settles (fs.image.decompressSectionPrefix libs record want) fun _ => True := by
    intro record want within
    refine (section_ record).bind fun read long => (verified record read long).bind fun _ _ => ?_
    exact (settles_slice long (Nat.le_refl _)).bind fun _ _ =>
      ⟨codecs.decompressPrefix _ _ within, fun _ _ => trivial⟩
  have settled : Settles (fs.decodeRecord libs query retryInFull) fun _ => True := by
    refine (settles_okOr _ _).bind fun record _ => ?_
    dsimp only
    split
    · refine (front record _ (Nat.min_le_right _ _)).bind fun decoded _ => ?_
      cases decoded with
      | none => exact full record
      | some bytes => exact settles_ok trivial
    · exact full record
  exact settled.1

/-- Alone with a cache, `read_into` returns. -/
theorem readInto_returns (derived : Derived fs) {libs : Libraries} {bytes : Bytes}
    (serves : fs.image.source.Serves bytes) (short : bytes.length < sliceLimit)
    (codecs : CodecsReturn libs fs.blockSize.toNat) (budget : Nat) {cache : Inner}
    (accounted : Accounted cache)
    (idle : ∀ block, cache.blocks block ≠ some .loading) (inode : UInt32) (offset : UInt64)
    (buf : Bytes) :
    ∃ result after, (fs.readInto inode offset.toNat buf).run (fs.decodeBlock libs budget) cache =
      some (result, after) ∧ result ≠ panicked := by
  have answers : ∀ query cache, (Accounted cache ∧ ∀ block, cache.blocks block ≠ some .loading) →
      ∃ answer after, fs.decodeBlock libs budget query cache = some (answer, after) ∧
        Calm query answer ∧ Accounted after ∧ ∀ block, after.blocks block ≠ some .loading := by
    rintro query cache ⟨accounted, idle⟩
    obtain ⟨answer, after, fetched, kept, still, decoder, _⟩ := fetch_ready accounted idle
      (fs.decodeRecord libs query) budget fs.blockSize.toNat query.block query.needed
    refine ⟨answer, after, fetched, ?_, kept, still⟩
    rintro rfl
    obtain ⟨retryInFull, stuck⟩ := decoder _ rfl
    exact decodeRecord_calm serves short codecs query retryInFull stuck
  obtain ⟨result, after, ran, yields, _⟩ :=
    run_yields answers (fs.readInto inode offset.toNat buf) cache ⟨accounted, idle⟩
  exact ⟨result, after, ran, readInto_calm derived inode offset buf result yields⟩

end Reads

section Opened

/-- Whatever the tables hold, once they are accepted no accessor panics: not for any inode,
offset, buffer or name, and not for any answer of the block cache. Blocks are decoded at sizes up
to the block size, at which no codec of any build panics. -/
theorem accessors_return {image : Image} {tables : Tables} {fs : Filesystem}
    (made : Filesystem.ofTables image tables = .ok fs) (inode : UInt32) (offset : UInt64)
    (buf name : Bytes) :
    fs.kind inode ≠ panicked ∧ fs.stat inode ≠ panicked ∧ fs.fileSize inode ≠ panicked ∧
    fs.contentId inode ≠ panicked ∧ fs.readLink inode ≠ panicked ∧
    fs.deviceRdev inode ≠ panicked ∧ fs.parent inode ≠ panicked ∧ fs.readDir inode ≠ panicked ∧
    fs.lookupChild inode name ≠ panicked ∧
    (∀ result, Yields Calm (fs.readInto inode offset.toNat buf) result → result ≠ panicked) ∧
    (∀ decoders features base,
      CodecsReturn (Decoders.libraries decoders features base) fs.blockSize.toNat) ∧
    ∀ (libs : Libraries) (bytes : Bytes), image.source.Serves bytes → bytes.length < sliceLimit →
      CodecsReturn libs fs.blockSize.toNat →
      ∀ (budget : Nat) (cache : Inner), Accounted cache →
        (∀ block, cache.blocks block ≠ some .loading) →
        ∃ result after, (fs.readInto inode offset.toNat buf).run (fs.decodeBlock libs budget) cache =
          some (result, after) ∧ result ≠ panicked := by
  have derived := derived_of_ofTables made
  have same : fs.image = image := by
    simp only [Filesystem.ofTables, bind_eq_ok] at made
    obtain ⟨_, _, _, _, done⟩ := made
    cases done
    rfl
  refine ⟨(settles_kind inode).1, (settles_stat derived inode).1,
    (settles_fileSize derived inode).1, (settles_contentId derived inode).1,
    (settles_readLink derived inode).1, (settles_deviceRdev inode).1, (settles_parent inode).1,
    (settles_readDir inode).1, (settles_lookupChild inode name).1,
    readInto_calm derived inode offset buf,
    fun decoders features base => codecsReturn_block decoders features base fs.blockSize, ?_⟩
  intro libs bytes serves short codecs budget cache accounted idle
  exact readInto_returns derived (same ▸ serves) short codecs budget accounted idle inode offset buf

theorem accessors_return_named :
    ∃ result after, (named.readInto 1 0 [9, 9]).run (named.decodeBlock namedLibraries 0) .empty =
      some (result, after) ∧ result ≠ panicked := by
  have made : Filesystem.ofTables namedImage namedTables = .ok named :=
    ofTables_unpacked rfl rfl (by decide) (by decide)
  obtain ⟨_, _, _, _, _, _, _, _, _, _, codecs, reads⟩ := accessors_return made 1 0 [9, 9] []
  have serves := @ImageSource.serves_ofVec namedBytes (by decide +kernel)
  exact reads namedLibraries namedBytes serves (by decide +kernel) (codecs _ _ _) 0 .empty
    accounted_empty (by simp [Inner.empty])

end Opened

end Rdwarfs.Guarantees.AccessorSafety
