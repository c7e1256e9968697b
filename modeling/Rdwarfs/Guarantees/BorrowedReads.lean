import Rdwarfs.Guarantees.CacheAccounting
import Rdwarfs.Lib.Builds
import Rdwarfs.Source.Fs.Read

/-!
# A borrowed block is still there

`read_borrowed` decodes a block and then asks the cache for it again. Holding the cache
exclusively, it always finds the block it just decoded.
-/
namespace Rdwarfs.Guarantees.BorrowedReads

open Lib.Machine Lib.Builds Source Source.Fs Source.Codecs CacheAccounting

section Cache

variable {cache : Inner}

/-- Alone with a cache without markers, `fetch` returns, and what it returns is ready. -/
theorem fetch_ready (accounted : Accounted cache)
    (idle : ∀ block, cache.blocks block ≠ some .loading) (decode : Bool → Result Bytes)
    (budget whole : Nat) (block : UInt32) (needed : Nat) :
    ∃ result after, cache.fetch decode budget whole block needed = some (result, after) ∧
      Accounted after ∧ (∀ block, after.blocks block ≠ some .loading) ∧
      (∀ failure, result = .error failure → ∃ retryInFull, decode retryInFull = .error failure) ∧
      ∀ bytes, result = .ok bytes → after.blocks block = some (.ready bytes) := by
  obtain ⟨result, after, fetched, kept, still, ready, _, source⟩ :=
    accounted.fetch idle decode budget whole block needed
  refine ⟨result, after, fetched, kept, still, fun failure failed => ?_, ready⟩
  rcases source with ⟨bytes, _, _, hit⟩ | ⟨retryInFull, same⟩
  · rw [hit] at failed
    cases failed
  · exact ⟨retryInFull, same.symm.trans failed⟩

theorem residentBlock_ready {block : UInt32} {bytes : Bytes}
    (ready : cache.blocks block = some (.ready bytes)) :
    (cache.residentBlock block).1 = some bytes := by
  have same : (cache.touch block).blocks = cache.blocks := by
    unfold Inner.touch
    split <;> rfl
  simp only [Inner.residentBlock, same, ready]

end Cache

section Messages

/-- Not the report of a lost entry. -/
def Other (failure : Failure Error) : Prop := failure ≠ .err Filesystem.lostEntry

theorem other_panic : Other .panic := by
  intro same
  cases same

/-- Told apart by the first letter. -/
theorem other_corrupt {message : String} (starts : message.toList.head? ≠ some 'b') :
    Other (.err (corrupt message)) := by
  intro same
  simp only [Filesystem.lostEntry, corrupt, Failure.err.injEq, Error.decode.injEq] at same
  exact starts (by rw [same.2]; rfl)

variable (fs : Filesystem)

theorem kind_other (inode : UInt32) : FailsOnly Other (fs.kind inode) := by
  have indexed : FailsOnly Other (fs.inodeIndex inode) := by
    refine FailsOnly.bind (failsOnly_refuseIf _ (other_corrupt ?_)) fun _ => failsOnly_ok _
    simp [toString]
  have mode (modeIndex : UInt32) : FailsOnly Other (fs.modeAt modeIndex) := by
    apply failsOnly_okOr (other_corrupt _)
    simp [toString]
  refine FailsOnly.bind (FailsOnly.bind indexed fun i => ?_) fun _ => failsOnly_ok _
  exact (failsOnly_index _ _ other_panic).bind fun info => mode _

theorem regular_other (kind : InodeKind) (inode : UInt32) :
    FailsOnly Other (refuseIf (kind ≠ .regular) (corrupt s!"inode {inode} is not a regular file")) := by
  apply failsOnly_refuseIf _ (other_corrupt _)
  simp [toString]

theorem chunkTableSlot_other (inode : UInt32) : FailsOnly Other (fs.chunkTableSlot inode) := by
  unfold Filesystem.chunkTableSlot Fs.chunkTableSlot
  refine (failsOnly_subWord _ _ other_panic).bind fun numUnique => FailsOnly.ite ?_ ?_
  · refine FailsOnly.bind (failsOnly_refuseIf _ (other_corrupt ?_)) fun _ => failsOnly_ok _
    simp [toString]
  · refine FailsOnly.bind (failsOnly_okOr (other_corrupt ?_)) fun group => ?_
    · simp [toString]
    · exact failsOnly_okOr (other_corrupt (by decide))

theorem chunkRange_other (inode : UInt32) : FailsOnly Other (fs.chunkRange inode) := by
  unfold Filesystem.chunkRange
  refine (chunkTableSlot_other fs inode).bind fun tableIndex => ?_
  refine (failsOnly_addWord _ _ other_panic).bind fun next => ?_
  refine FailsOnly.bind (failsOnly_refuseIf _ (other_corrupt ?_)) fun _ => ?_
  · simp [toString]
  refine (failsOnly_index _ _ other_panic).bind fun start => ?_
  refine (failsOnly_index _ _ other_panic).bind fun stop => ?_
  refine FailsOnly.bind (failsOnly_refuseIf _ (other_corrupt ?_)) fun _ => failsOnly_ok _
  simp [toString]

theorem chunkLogicalLen_other (chunk : Metadata.Chunk) : FailsOnly Other (fs.chunkLogicalLen chunk) := by
  unfold Filesystem.chunkLogicalLen Fs.chunkLogicalLen holeLength
  refine FailsOnly.ite (FailsOnly.ite (failsOnly_okOr (other_corrupt ?_)) ?_) (failsOnly_ok _)
  · simp [toString]
  · exact failsOnly_okOr (other_corrupt (by decide))

theorem borrowChunk_other (offset len i : Nat) : FailsOnly Other (fs.borrowChunk offset len i) := by
  unfold Filesystem.borrowChunk
  refine (failsOnly_index _ _ other_panic).bind fun chunk => FailsOnly.ite (failsOnly_ok _) ?_
  refine (failsOnly_index _ _ other_panic).bind fun chunkEnd => FailsOnly.ite (failsOnly_ok _) ?_
  refine (chunkLogicalLen_other fs chunk).bind fun own => ?_
  refine (failsOnly_subWord _ _ other_panic).bind fun cursor => ?_
  refine (failsOnly_subWord _ _ other_panic).bind fun localStart => ?_
  refine (failsOnly_addWord _ _ other_panic).bind fun blockStart => ?_
  exact (failsOnly_addWord _ _ other_panic).bind fun blockEnd => failsOnly_ok _

theorem borrowWindow_other (inode : UInt32) (offset len : Nat) :
    FailsOnly Other (fs.borrowWindow inode offset len) := by
  unfold Filesystem.borrowWindow Filesystem.chunksCovering
  refine (kind_other fs inode).bind fun kind => ?_
  refine (regular_other kind inode).bind fun _ => FailsOnly.ite (failsOnly_ok _) ?_
  refine (chunkRange_other fs inode).bind fun range => ?_
  refine FailsOnly.bind ?_ fun covering => ?_
  · exact (failsOnly_slice _ _ _ other_panic).bind fun _ => failsOnly_ok _
  · cases covering with
    | nil => exact failsOnly_ok _
    | cons i rest => exact borrowChunk_other fs offset len i

end Messages

/-- Only a decoder could report a lost entry, and waiting is impossible. -/
theorem readBorrowed_keeps (fs : Filesystem) (libs : Libraries) (budget : Nat) (inode : UInt32)
    (offset len : Nat) {cache : Inner} (accounted : Accounted cache)
    (idle : ∀ block, cache.blocks block ≠ some .loading) :
    ∃ result after, fs.readBorrowed libs budget inode offset len cache = some (result, after) ∧
      (result = fail Filesystem.lostEntry →
        ∃ query retryInFull, fs.decodeRecord libs query retryInFull = fail Filesystem.lostEntry) := by
  unfold Filesystem.readBorrowed
  cases borrowed : fs.borrowWindow inode offset len with
  | error failure =>
    refine ⟨_, _, rfl, fun lost => ?_⟩
    cases lost
    exact absurd rfl (borrowWindow_other fs inode offset len _ borrowed)
  | ok borrow =>
    cases borrow with
    | unavailable => exact ⟨_, _, rfl, by simp⟩
    | empty => exact ⟨_, _, rfl, by simp⟩
    | window block blockStart blockEnd =>
      obtain ⟨result, after, fetched, _, _, decoder, ready⟩ := fetch_ready accounted idle
        (fs.decodeRecord libs ⟨block, blockEnd⟩) budget fs.blockSize.toNat block blockEnd
      simp only [Filesystem.decodeBlock, fetched]
      cases result with
      | error failure =>
        refine ⟨_, _, rfl, fun lost => ?_⟩
        cases lost
        obtain ⟨retryInFull, decoded⟩ := decoder _ rfl
        exact ⟨_, retryInFull, decoded⟩
      | ok bytes =>
        simp only
        by_cases beyond : blockEnd > bytes.length
        · refine ⟨_, _, if_pos beyond, fun lost => ?_⟩
          have other : Other (.err (corrupt
              s!"chunk {blockStart}..{blockEnd} exceeds block of {bytes.length} bytes")) :=
            other_corrupt (by simp [toString])
          exact absurd (by simpa using lost) other
        · refine ⟨_, _, if_neg beyond, fun lost => ?_⟩
          rw [residentBlock_ready (ready bytes rfl), okOr_some, ok_bind] at lost
          have quiet : FailsOnly Other (slice bytes blockStart blockEnd >>= fun window =>
              (.ok (some window) : Result (Option Bytes))) :=
            (failsOnly_slice _ _ _ other_panic).bind fun _ => failsOnly_ok _
          exact absurd rfl (quiet _ lost)

end Rdwarfs.Guarantees.BorrowedReads
