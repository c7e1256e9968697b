import Rdwarfs.Guarantees.BorrowedReads
import Rdwarfs.Guarantees.ReadContract

/-!
# A borrowed read is a copied read

`read_borrowed` takes its window from the chunk that the range starts in. Where the range ends in
that chunk, the window is what `read_into` copies after the same single question to the cache. The
comparison with the end of the chunk saturates, so that a range past the last 64-bit offset is taken
to end at it.
-/
namespace Rdwarfs.Guarantees.BorrowedWindows

open Lib.Machine Lib.Oracle Source Source.Metadata Source.Fs Source.Codecs
open BorrowedReads CacheAccounting ChunkEnds OpenedFilesystem ReadContract

section Ends

variable {length : Chunk → Result Nat}

theorem le_getLastD {cursor : Nat} {chunks : List Chunk} {ends : List Nat}
    (runs : Runs length cursor chunks ends) : cursor ≤ ends.getLastD cursor := by
  induction runs with
  | nil cursor => exact Nat.le_refl _
  | @cons cursor len chunk chunks ends here word rest ih =>
    rw [List.getLastD_cons]
    omega

/-- The chunk, from `cursor` on, that `offset` lies in. -/
structure Holds (length : Chunk → Result Nat) (offset cursor len : Nat) (chunk : Chunk) : Prop where
  len_eq : length chunk = .ok len
  starts : cursor ≤ offset
  inside : offset < cursor + len
  word : cursor + len < wordLimit

/-- The partition point is the chunk that holds the offset, if any does. -/
theorem runs_split {cursor offset : Nat} {chunks : List Chunk} {ends : List Nat}
    (runs : Runs length cursor chunks ends) (before : cursor ≤ offset) {first : Nat}
    (found : first = partitionPoint (fun stop => decide (stop ≤ offset)) ends) :
    (∀ j stop, j < first → ends[j]? = some stop → stop ≤ offset) ∧
    ((first = ends.length ∧ ends.getLastD cursor ≤ offset) ∨
      ∃ reached len chunk, Holds length offset reached len chunk ∧ chunks[first]? = some chunk ∧
        ends[first]? = some (reached + len) ∧ reached + len ≤ ends.getLastD cursor) := by
  induction runs generalizing first with
  | nil cursor =>
    subst found
    exact ⟨by simp, Or.inl ⟨rfl, before⟩⟩
  | @cons cursor len chunk chunks ends here word rest ih =>
    by_cases behind : cursor + len ≤ offset
    · have next : first = partitionPoint (fun stop => decide (stop ≤ offset)) ends + 1 := by
        rw [found, partitionPoint, List.takeWhile_cons_of_pos (by simpa using behind),
          List.length_cons, partitionPoint]
      obtain ⟨earlier, here_⟩ := ih behind rfl
      subst next
      refine ⟨?_, ?_⟩
      · intro j stop lt at_
        cases j with
        | zero =>
          cases at_
          exact behind
        | succ j => exact earlier j stop (by omega) at_
      · rw [List.getLastD_cons]
        rcases here_ with ⟨all, last⟩ | ⟨reached, own, chunk', holds, chunkAt, endAt, last⟩
        · exact Or.inl ⟨by rw [all, List.length_cons], last⟩
        · exact Or.inr ⟨reached, own, chunk', holds, chunkAt, endAt, last⟩
    · have zero : first = 0 := by
        rw [found, partitionPoint, List.takeWhile_cons_of_neg (by simpa using behind)]
        rfl
      subst zero
      refine ⟨by simp, Or.inr ⟨cursor, len, chunk, ⟨here, before, by omega, word⟩, rfl, rfl, ?_⟩⟩
      rw [List.getLastD_cons]
      exact le_getLastD rest

end Ends

/-- The chunk that `offset` lies in, and where it ends: the first of the file's chunks that ends
behind the offset. -/
def StartsIn (fs : Filesystem) (inode : UInt32) (offset : Nat) (chunk : Chunk) (stop : Nat) : Prop :=
  ∃ first last i, fs.chunkRange inode = .ok (first, last) ∧ first ≤ i ∧ i < last ∧
    fs.chunks[i]? = some chunk ∧ fs.chunkEnd[i]? = some stop ∧ offset < stop ∧
    ∀ j earlier, first ≤ j → j < i → fs.chunkEnd[j]? = some earlier → earlier ≤ offset

theorem StartsIn.unique {fs : Filesystem} {inode : UInt32} {offset stop stop' : Nat}
    {chunk chunk' : Chunk} (one : StartsIn fs inode offset chunk stop)
    (other : StartsIn fs inode offset chunk' stop') : chunk' = chunk ∧ stop' = stop := by
  obtain ⟨first, last, i, range, low, high, chunkAt, endAt, past, before⟩ := one
  obtain ⟨first', last', j, range', low', high', chunkAt', endAt', past', before'⟩ := other
  rw [range] at range'
  cases range'
  have same : i = j := by
    rcases Nat.lt_trichotomy i j with lt | eq | gt
    · have := before' i stop low lt endAt
      omega
    · exact eq
    · have := before j stop' low' gt endAt'
      omega
  subst same
  rw [chunkAt] at chunkAt'
  rw [endAt] at endAt'
  cases chunkAt'
  cases endAt'
  exact ⟨rfl, rfl⟩

section Covering

variable {fs : Filesystem} (derived : Derived fs) {inode : UInt32} {start stop : Nat}
  (regular : fs.kind inode = .ok .regular) (range : fs.chunkRange inode = .ok (start, stop))
  (offset : Nat)

include derived regular range

/-- Either the file ends at or before the offset, or the first covering chunk holds it. -/
theorem covering_cases :
    ∃ size covering, fs.fileSize inode = .ok size ∧
      fs.chunksCovering start stop offset = .ok covering ∧
      ((covering = [] ∧ size ≤ offset ∧ ∀ chunk last, ¬ StartsIn fs inode offset chunk last) ∨
        ∃ i rest cursor len chunk, covering = i :: rest ∧
          Holds fs.chunkLogicalLen offset cursor len chunk ∧ fs.chunks[i]? = some chunk ∧
          fs.chunkEnd[i]? = some (cursor + len) ∧ cursor + len ≤ size ∧
          StartsIn fs inode offset chunk (cursor + len)) := by
  obtain ⟨ends, runs, same, count, ordered, inside⟩ := runs_of_chunkRange derived range
  have sliced : (slice fs.chunkEnd start stop : Result (List Nat)) = .ok ends := by
    rw [slice_of_le ordered inside, same]
  obtain ⟨earlier, here⟩ := runs_split runs (Nat.zero_le offset) rfl
  have endAt : ∀ j, start ≤ j → j < stop → ends[j - start]? = fs.chunkEnd[j]? := by
    intro j low high
    rw [← same, List.getElem?_take_of_lt (by omega), List.getElem?_drop]
    congr 1
    omega
  have covered : fs.chunksCovering start stop offset = .ok (List.range'
      (start + partitionPoint (fun stop => decide (stop ≤ offset)) ends)
      (stop - (start + partitionPoint (fun stop => decide (stop ≤ offset)) ends))) := by
    rw [Filesystem.chunksCovering, sliced, ok_bind]
    rfl
  refine ⟨_, _, fileSize_last regular range same count, covered, ?_⟩
  rcases here with ⟨all, last⟩ | ⟨reached, len, chunk, holds, chunkAt, stopAt, last⟩
  · refine Or.inl ⟨?_, last, ?_⟩
    · rw [all, count, show stop - (start + (stop - start)) = 0 by omega]
      rfl
    · rintro chunk last ⟨first, final, i, range', low, high, -, stopAt, past, -⟩
      rw [range] at range'
      cases range'
      have passed := earlier (i - start) last (by omega) (by rw [endAt i low high, stopAt])
      omega
  · generalize at_ : partitionPoint (fun stop => decide (stop ≤ offset)) ends = first at *
    have bound := (List.getElem?_eq_some_iff.mp stopAt).1
    have placed : ends[start + first - start]? = fs.chunkEnd[start + first]? :=
      endAt _ (by omega) (by omega)
    rw [Nat.add_sub_cancel_left, stopAt] at placed
    rw [List.getElem?_take_of_lt (by omega), List.getElem?_drop] at chunkAt
    refine Or.inr ⟨start + first, List.range' (start + first + 1) (stop - (start + first) - 1),
      reached, len, chunk, ?_, holds, chunkAt, placed.symm, last, ?_⟩
    · obtain ⟨left, more⟩ : ∃ left, stop - (start + first) = left + 1 :=
        ⟨stop - (start + first) - 1, by omega⟩
      rw [more, List.range'_succ, Nat.add_sub_cancel]
    · refine ⟨start, stop, start + first, range, by omega, by omega, chunkAt, placed.symm,
        holds.inside, ?_⟩
      intro j before low high stopped
      exact earlier (j - start) before (by omega) (by rw [endAt j low (by omega), stopped])

end Covering

section Chunk

variable {fs : Filesystem} {offset cursor own i : Nat} {chunk : Chunk}
  (holds : Holds fs.chunkLogicalLen offset cursor own chunk)
  (chunkAt : fs.chunks[i]? = some chunk) (endAt : fs.chunkEnd[i]? = some (cursor + own))

include chunkAt endAt

theorem borrowChunk_unavailable {len : Nat}
    (refused : fs.isHoleChunk chunk = true ∨ saturatingAddWord offset len > cursor + own) :
    fs.borrowChunk offset len i = .ok .unavailable := by
  unfold Filesystem.borrowChunk
  rw [index_of_getElem? chunkAt, ok_bind]
  cases hole : fs.isHoleChunk chunk with
  | true => rfl
  | false =>
    have past : saturatingAddWord offset len > cursor + own := by simpa [hole] using refused
    rw [index_of_getElem? endAt]
    simp only [Bool.false_eq_true, if_false, ok_bind, if_pos past]
    rfl

variable (block : fs.isHoleChunk chunk = false)

include holds block

omit chunkAt endAt in
theorem own_eq : own = chunk.size.toNat := by
  have length := holds.len_eq
  rw [chunkLogicalLen_of_block block, Except.ok.injEq] at length
  exact length.symm

/-- Within the chunk, the window starts as far into the block as the offset is into the chunk. -/
theorem borrowChunk_eq {len : Nat} (within : saturatingAddWord offset len ≤ cursor + own) :
    fs.borrowChunk offset len i =
      addWord (chunk.offset.toNat + (offset - cursor)) len >>= fun blockEnd =>
        .ok (.window chunk.block (chunk.offset.toNat + (offset - cursor)) blockEnd) := by
  have size := own_eq holds block
  have offsetWord := chunk.offset.toNat_lt
  have sizeWord := chunk.size.toNat_lt
  have starts := holds.starts
  have inside := holds.inside
  have placed : (addWord chunk.offset.toNat (offset - cursor) : Result Nat) =
      .ok (chunk.offset.toNat + (offset - cursor)) := by
    apply addWord_of_lt
    rw [wordLimit_eq]
    omega
  unfold Filesystem.borrowChunk
  rw [index_of_getElem? chunkAt, index_of_getElem? endAt]
  simp only [ok_bind, block, Bool.false_eq_true, if_false, if_neg (Nat.not_lt.mpr within),
    holds.len_eq, subWord_of_le (Nat.le_add_left own cursor), Nat.add_sub_cancel,
    subWord_of_le starts, placed]
  rfl

theorem borrowChunk_window {len : Nat} (within : offset + len ≤ cursor + own) :
    fs.borrowChunk offset len i =
      .ok (.window chunk.block (chunk.offset.toNat + (offset - cursor))
        (chunk.offset.toNat + (offset - cursor) + len)) := by
  have size := own_eq holds block
  have offsetWord := chunk.offset.toNat_lt
  have sizeWord := chunk.size.toNat_lt
  have word := holds.word
  have starts := holds.starts
  have sum : saturatingAddWord offset len = offset + len := by
    rw [saturatingAddWord_eq, Nat.min_eq_left (by omega)]
  rw [borrowChunk_eq holds chunkAt endAt block (by rwa [sum]),
    addWord_of_lt (by rw [wordLimit_eq]; omega), ok_bind]

/-- The read loop asks for the same window of the same block, and then its buffer is full. -/
theorem readChunks_window {len : Nat} (some_ : len ≠ 0) (within : offset + len ≤ cursor + own)
    {buf : Bytes} (room : buf.length = len) (rest : List Nat) {cache after : Inner}
    {libs : Libraries} {budget : Nat} {bytes : Bytes}
    (decoded : fs.decodeBlock libs budget
      ⟨chunk.block, chunk.offset.toNat + (offset - cursor) + len⟩ cache = some (.ok bytes, after))
    (reaches : chunk.offset.toNat + (offset - cursor) + len ≤ bytes.length) :
    (fs.readChunks offset (offset + len) (i :: rest) [] buf none).run
        (fs.decodeBlock libs budget) cache =
      some (.ok (field bytes (chunk.offset.toNat + (offset - cursor)) len, []), after) := by
  have starts := holds.starts
  have inside := holds.inside
  have visited := @visit_eq fs offset (offset + len) len i cursor own chunk chunkAt endAt
    holds.len_eq holds.word (Nat.le_add_right offset len)
  have taken : takeAt offset (offset + len) len cursor (cursor + own) = len := by
    simp only [takeAt]
    omega
  rw [if_neg (by omega), if_neg (by omega), block, taken] at visited
  have nonempty : buf ≠ [] := by
    rintro rfl
    exact some_ room.symm
  have copied : Filesystem.copyWindow bytes (chunk.offset.toNat + (offset - cursor))
      (chunk.offset.toNat + (offset - cursor) + len) =
        .ok (field bytes (chunk.offset.toNat + (offset - cursor)) len) := by
    unfold Filesystem.copyWindow
    rw [refuseIf_of_not (Nat.not_lt.mpr reaches), ok_bind, slice_of_le (by omega) reaches,
      Nat.add_sub_cancel_left]
    rfl
  have width : (field bytes (chunk.offset.toNat + (offset - cursor)) len).length = len :=
    field_length reaches
  have full : buf.drop len = [] := List.drop_eq_nil_of_le (by omega)
  rw [Filesystem.readChunks, if_neg nonempty, room, visited]
  simp only [Bool.false_eq_true, if_false, Prog.lift_ok_bind, Filesystem.reach,
    Prog.question_bind, Prog.run, decoded, copied, List.nil_append, width, full]
  cases rest <;> simp [Filesystem.readChunks, Prog.run]

end Chunk

/-- The range starts in a hole, reaches past the chunk it starts in, or runs past the end. -/
def OutOfReach (fs : Filesystem) (inode : UInt32) (offset len : Nat) : Prop :=
  (∃ chunk stop, StartsIn fs inode offset chunk stop ∧
    (fs.isHoleChunk chunk = true ∨ stop < offset + len)) ∨
  ∃ size, fs.fileSize inode = .ok size ∧ size < offset + len

/-- The range leaves the word, and starts in a chunk that is no hole and ends with it. -/
def Saturates (fs : Filesystem) (inode : UInt32) (offset len : Nat) : Prop :=
  wordLimit ≤ offset + len ∧
    ∃ chunk, StartsIn fs inode offset chunk (wordLimit - 1) ∧ fs.isHoleChunk chunk = false

/-- What a borrowed slice promises, and when there must be none. -/
def Agrees (libs : Libraries) (budget : Nat) (fs : Filesystem) (inode : UInt32)
    (offset len : Nat) (cache : Inner) : Prop :=
  ∃ result after, fs.readBorrowed libs budget inode offset len cache = some (result, after) ∧
    (∀ borrowed, result = .ok (some borrowed) → borrowed.length = len ∧
      (len ≠ 0 → (∃ size, fs.fileSize inode = .ok size ∧ offset + len ≤ size) ∧
        ∀ buf : Bytes, buf.length = len →
          ∃ later, (fs.readInto inode offset buf).run (fs.decodeBlock libs budget) cache =
            some (.ok (len, borrowed), later))) ∧
    (len ≠ 0 → OutOfReach fs inode offset len → result = .ok none)

section Main

variable {fs : Filesystem} (derived : Derived fs) {inode : UInt32}
  (regular : fs.kind inode = .ok .regular)

theorem borrowWindow_nil {start stop offset len : Nat} (regular : fs.kind inode = .ok .regular)
    (range : fs.chunkRange inode = .ok (start, stop))
    (covered : fs.chunksCovering start stop offset = .ok []) (some_ : len ≠ 0) :
    fs.borrowWindow inode offset len = .ok .unavailable := by
  simp [Filesystem.borrowWindow, regular, range, covered, some_, refuseIf_of_not]

theorem borrowWindow_cons {start stop offset len i : Nat} {rest : List Nat}
    (regular : fs.kind inode = .ok .regular) (range : fs.chunkRange inode = .ok (start, stop))
    (covered : fs.chunksCovering start stop offset = .ok (i :: rest)) (some_ : len ≠ 0) :
    fs.borrowWindow inode offset len = fs.borrowChunk offset len i := by
  simp [Filesystem.borrowWindow, regular, range, covered, some_, refuseIf_of_not]

theorem readBorrowed_unavailable {libs : Libraries} {budget offset len : Nat} {cache : Inner}
    (refused : fs.borrowWindow inode offset len = .ok .unavailable) :
    fs.readBorrowed libs budget inode offset len cache = some (.ok none, cache) := by
  rw [Filesystem.readBorrowed, refused]

include derived regular

/-- A range out of reach has no window, the saturating comparison apart. -/
theorem unavailable_of_outOfReach {offset len : Nat} (offsetWord : offset < wordLimit)
    (some_ : len ≠ 0) (far : OutOfReach fs inode offset len)
    (unsaturated : ¬ Saturates fs inode offset len) :
    fs.borrowWindow inode offset len = .ok .unavailable := by
  obtain ⟨start, stop, range⟩ : ∃ start stop, fs.chunkRange inode = .ok (start, stop) := by
    rcases far with ⟨_, _, ⟨start, stop, _, range, _⟩, _⟩ | ⟨size, known, _⟩
    · exact ⟨start, stop, range⟩
    · simp only [Filesystem.fileSize, regular, ok_bind, ne_eq, not_true_eq_false, if_false,
        bind_eq_ok] at known
      obtain ⟨⟨start, stop⟩, range, _⟩ := known
      exact ⟨start, stop, range⟩
  obtain ⟨size, covering, known, covered, none_ | here⟩ :=
    covering_cases derived regular range offset
  · rw [none_.1] at covered
    exact borrowWindow_nil regular range covered some_
  obtain ⟨i, rest, cursor, own, chunk, rfl, holds, chunkAt, endAt, last, starts⟩ := here
  rw [borrowWindow_cons regular range covered some_]
  apply borrowChunk_unavailable chunkAt endAt
  by_cases hole : fs.isHoleChunk chunk = true
  · exact Or.inl hole
  · refine Or.inr ?_
    have word := holds.word
    have past : cursor + own < offset + len := by
      rcases far with ⟨chunk', stop', starts', beyond⟩ | ⟨size', known', beyond⟩
      · obtain ⟨rfl, rfl⟩ := starts.unique starts'
        exact beyond.resolve_left hole
      · rw [known, Except.ok.injEq] at known'
        omega
    rw [saturatingAddWord_eq]
    by_cases overflow : wordLimit ≤ offset + len
    · have short : cursor + own ≠ wordLimit - 1 := by
        intro whole
        rw [whole] at starts
        exact unsaturated ⟨overflow, chunk, starts, by simpa using hole⟩
      omega
    · omega

/-- What is given out is of the chunk the range starts in, which is stored and reaches as far as
the saturated sum. -/
theorem chunk_of_borrowed {offset len : Nat} (some_ : len ≠ 0) {borrow : Filesystem.Borrow}
    (borrowed : fs.borrowWindow inode offset len = .ok borrow) (given : borrow ≠ .unavailable) :
    ∃ start stop i rest cursor own chunk size, fs.chunkRange inode = .ok (start, stop) ∧
      fs.chunksCovering start stop offset = .ok (i :: rest) ∧
      Holds fs.chunkLogicalLen offset cursor own chunk ∧ fs.chunks[i]? = some chunk ∧
      fs.chunkEnd[i]? = some (cursor + own) ∧ fs.isHoleChunk chunk = false ∧
      saturatingAddWord offset len ≤ cursor + own ∧ fs.fileSize inode = .ok size ∧
      cursor + own ≤ size ∧ StartsIn fs inode offset chunk (cursor + own) ∧
      fs.borrowChunk offset len i = .ok borrow := by
  obtain ⟨⟨start, stop⟩, range⟩ : ∃ range, fs.chunkRange inode = .ok range := by
    unfold Filesystem.borrowWindow at borrowed
    rw [regular, ok_bind, refuseIf_of_not (by simp), ok_bind, if_neg some_] at borrowed
    obtain ⟨range, accepted, _⟩ := bind_eq_ok.mp borrowed
    exact ⟨range, accepted⟩
  obtain ⟨size, covering, known, covered, none_ | here⟩ :=
    covering_cases derived regular range offset
  · rw [none_.1] at covered
    rw [borrowWindow_nil regular range covered some_, Except.ok.injEq] at borrowed
    exact absurd borrowed.symm given
  obtain ⟨i, rest, cursor, own, chunk, rfl, holds, chunkAt, endAt, last, starts⟩ := here
  rw [borrowWindow_cons regular range covered some_] at borrowed
  by_cases refused : fs.isHoleChunk chunk = true ∨ saturatingAddWord offset len > cursor + own
  · rw [borrowChunk_unavailable chunkAt endAt refused, Except.ok.injEq] at borrowed
    exact absurd borrowed.symm given
  · obtain ⟨block, within⟩ := not_or.mp refused
    exact ⟨start, stop, i, rest, cursor, own, chunk, size, range, covered, holds, chunkAt, endAt,
      by simpa using block, Nat.le_of_not_lt within, known, last, starts, borrowed⟩

/-- A window is given out only of the chunk the range starts in, and only to its end unless the
comparison saturates. -/
theorem window_of_borrowed {offset len : Nat} (some_ : len ≠ 0)
    (unsaturated : ¬ Saturates fs inode offset len) {block : UInt32} {blockStart blockEnd : Nat}
    (borrowed : fs.borrowWindow inode offset len = .ok (.window block blockStart blockEnd)) :
    ∃ start stop i rest cursor own chunk size, fs.chunkRange inode = .ok (start, stop) ∧
      fs.chunksCovering start stop offset = .ok (i :: rest) ∧
      Holds fs.chunkLogicalLen offset cursor own chunk ∧ fs.chunks[i]? = some chunk ∧
      fs.chunkEnd[i]? = some (cursor + own) ∧ fs.isHoleChunk chunk = false ∧
      offset + len ≤ cursor + own ∧ fs.fileSize inode = .ok size ∧ cursor + own ≤ size ∧
      block = chunk.block ∧ blockStart = chunk.offset.toNat + (offset - cursor) ∧
      blockEnd = chunk.offset.toNat + (offset - cursor) + len := by
  obtain ⟨start, stop, i, rest, cursor, own, chunk, size, range, covered, holds, chunkAt, endAt,
    block_, saturated, known, last, starts, borrowed⟩ :=
    chunk_of_borrowed derived regular some_ borrowed (by simp)
  have word := holds.word
  have within : offset + len ≤ cursor + own := by
    rw [saturatingAddWord_eq] at saturated
    by_cases overflow : wordLimit ≤ offset + len
    · have whole : cursor + own = wordLimit - 1 := by omega
      rw [whole] at starts
      exact absurd ⟨overflow, chunk, starts, block_⟩ unsaturated
    · omega
  rw [borrowChunk_window holds chunkAt endAt block_ within] at borrowed
  cases borrowed
  exact ⟨start, stop, i, rest, cursor, own, chunk, size, range, covered, holds, chunkAt, endAt,
    block_, within, known, last, rfl, rfl, rfl⟩

/-- Only the empty range is answered without looking at the file. -/
theorem borrowWindow_ne_empty {offset len : Nat} (some_ : len ≠ 0) :
    fs.borrowWindow inode offset len ≠ .ok .empty := by
  intro borrowed
  obtain ⟨_, _, i, _, cursor, own, chunk, _, _, _, holds, chunkAt, endAt, block, within, _, _, _,
    borrowed⟩ := chunk_of_borrowed derived regular some_ borrowed (by simp)
  rw [borrowChunk_eq holds chunkAt endAt block within] at borrowed
  obtain ⟨_, _, absurd_⟩ := bind_eq_ok.mp borrowed
  cases absurd_

/-- The range of a saturated comparison reaches past its chunk, but is not refused. -/
theorem available_of_saturates {offset len : Nat} (saturates : Saturates fs inode offset len)
    (offsetWord : offset < wordLimit) :
    len ≠ 0 ∧ OutOfReach fs inode offset len ∧
      fs.borrowWindow inode offset len ≠ .ok .unavailable ∧
      fs.borrowWindow inode offset len ≠ .ok .empty := by
  obtain ⟨overflow, chunk, starts, block⟩ := saturates
  have some_ : len ≠ 0 := by omega
  have limit := wordLimit_eq
  have far : OutOfReach fs inode offset len := Or.inl ⟨chunk, _, starts, Or.inr (by omega)⟩
  obtain ⟨start, stop, -, range, -⟩ := id starts
  obtain ⟨size, covering, known, covered, none_ | here⟩ :=
    covering_cases derived regular range offset
  · exact absurd starts (none_.2.2 chunk _)
  obtain ⟨i, rest, cursor, own, chunk', rfl, holds, chunkAt, endAt, last, starts'⟩ := here
  obtain ⟨rfl, whole⟩ := starts.unique starts'
  have within : saturatingAddWord offset len ≤ cursor + own := by
    rw [saturatingAddWord_eq]
    omega
  refine ⟨some_, far, ?_, borrowWindow_ne_empty derived regular some_⟩
  intro borrowed
  rw [borrowWindow_cons regular range covered some_,
    borrowChunk_eq holds chunkAt endAt block within] at borrowed
  obtain ⟨_, _, absurd_⟩ := bind_eq_ok.mp borrowed
  cases absurd_

omit derived in
/-- From the same cache, `read_into` puts the same question and copies the same window. -/
theorem readInto_window {start stop offset len i cursor own : Nat} {rest : List Nat} {chunk : Chunk}
    (range : fs.chunkRange inode = .ok (start, stop))
    (covered : fs.chunksCovering start stop offset = .ok (i :: rest))
    (holds : Holds fs.chunkLogicalLen offset cursor own chunk) (chunkAt : fs.chunks[i]? = some chunk)
    (endAt : fs.chunkEnd[i]? = some (cursor + own)) (block : fs.isHoleChunk chunk = false)
    (some_ : len ≠ 0) (within : offset + len ≤ cursor + own) {buf : Bytes} (room : buf.length = len)
    {cache after : Inner} {libs : Libraries} {budget : Nat} {bytes : Bytes}
    (decoded : fs.decodeBlock libs budget
      ⟨chunk.block, chunk.offset.toNat + (offset - cursor) + len⟩ cache = some (.ok bytes, after))
    (reaches : chunk.offset.toNat + (offset - cursor) + len ≤ bytes.length) :
    (fs.readInto inode offset buf).run (fs.decodeBlock libs budget) cache =
      some (.ok (len, field bytes (chunk.offset.toNat + (offset - cursor)) len), after) := by
  have word := holds.word
  have wantEnd : saturatingAddWord offset buf.length = offset + len := by
    rw [saturatingAddWord_eq, room, Nat.min_eq_left (by omega)]
  have copied := readChunks_window holds chunkAt endAt block some_ within room rest decoded reaches
  have width : (field bytes (chunk.offset.toNat + (offset - cursor)) len).length = len :=
    field_length reaches
  unfold Filesystem.readInto
  rw [regular, Prog.lift_ok_bind, refuseIf_of_not (by simp), Prog.lift_ok_bind, range,
    Prog.lift_ok_bind]
  dsimp only
  rw [covered, Prog.lift_ok_bind, wantEnd, Prog.run_bind_ok copied]
  simp [Prog.run, width]

/-- Borrowed reads agree with copied reads exactly where the comparison does not saturate. -/
theorem agrees_iff {libs : Libraries} {budget offset len : Nat} (offsetWord : offset < wordLimit)
    {cache : Inner} (accounted : Accounted cache)
    (idle : ∀ block, cache.blocks block ≠ some .loading) :
    Agrees libs budget fs inode offset len cache ↔ ¬ Saturates fs inode offset len := by
  constructor
  · rintro ⟨result, after, read, -, refuses⟩ saturates
    obtain ⟨some_, far, available, nonempty⟩ :=
      available_of_saturates derived regular saturates offsetWord
    rw [refuses some_ far, Filesystem.readBorrowed] at read
    cases borrowed : fs.borrowWindow inode offset len with
    | error failure => simp [borrowed] at read
    | ok borrow =>
      cases borrow with
      | unavailable => exact available borrowed
      | empty => exact nonempty borrowed
      | window block blockStart blockEnd =>
        obtain ⟨answer, later, fetched, -, -, -, ready⟩ := fetch_ready accounted idle
          (fs.decodeRecord libs ⟨block, blockEnd⟩) budget fs.blockSize.toNat block blockEnd
        simp only [borrowed, Filesystem.decodeBlock, fetched] at read
        cases answer with
        | error failure => cases read
        | ok bytes =>
          dsimp only at read
          rw [residentBlock_ready (ready bytes rfl)] at read
          split at read
          · cases read
          · simp only [okOr_some, ok_bind, Option.some.injEq, Prod.mk.injEq] at read
            obtain ⟨window, -, same⟩ := bind_eq_ok.mp read.1
            cases same
  · intro unsaturated
    by_cases some_ : len = 0
    · subst some_
      have empty : fs.borrowWindow inode offset 0 = .ok .empty := by
        simp [Filesystem.borrowWindow, regular, refuseIf_of_not]
      refine ⟨.ok (some []), cache, by rw [Filesystem.readBorrowed, empty], ?_, by simp⟩
      intro borrowed same
      cases same
      exact ⟨rfl, fun absurd_ => absurd rfl absurd_⟩
    have refuses : OutOfReach fs inode offset len →
        fs.borrowWindow inode offset len = .ok .unavailable := fun far =>
      unavailable_of_outOfReach derived regular offsetWord some_ far unsaturated
    unfold Agrees
    cases borrowed : fs.borrowWindow inode offset len with
    | error failure =>
      refine ⟨.error failure, cache, by rw [Filesystem.readBorrowed, borrowed], by simp, ?_⟩
      intro _ far
      rw [refuses far] at borrowed
      cases borrowed
    | ok borrow =>
      cases borrow with
      | unavailable =>
        exact ⟨.ok none, cache, readBorrowed_unavailable borrowed, by simp, fun _ _ => rfl⟩
      | empty => exact absurd borrowed (borrowWindow_ne_empty derived regular some_)
      | window block blockStart blockEnd =>
        obtain ⟨start, stop, i, rest, cursor, own, chunk, size, range, covered, holds, chunkAt,
          endAt, solid, within, known, last, rfl, rfl, rfl⟩ :=
          window_of_borrowed derived regular some_ unsaturated borrowed
        obtain ⟨answer, later, fetched, -, -, -, ready⟩ := fetch_ready accounted idle
          (fs.decodeRecord libs ⟨chunk.block, chunk.offset.toNat + (offset - cursor) + len⟩) budget
          fs.blockSize.toNat chunk.block (chunk.offset.toNat + (offset - cursor) + len)
        have refused : OutOfReach fs inode offset len → False := by
          intro far
          rw [refuses far] at borrowed
          cases borrowed
        simp only [Filesystem.readBorrowed, borrowed, Filesystem.decodeBlock, fetched]
        cases answer with
        | error failure =>
          exact ⟨_, _, rfl, by simp, fun _ far => absurd far refused⟩
        | ok bytes =>
          dsimp only
          by_cases beyond : chunk.offset.toNat + (offset - cursor) + len > bytes.length
          · exact ⟨_, _, if_pos beyond, by simp, fun _ far => absurd far refused⟩
          · have reaches := Nat.le_of_not_lt beyond
            rw [if_neg beyond, residentBlock_ready (ready bytes rfl), okOr_some, ok_bind,
              slice_of_le (by omega) reaches, ok_bind, Nat.add_sub_cancel_left]
            refine ⟨_, _, rfl, ?_, fun _ far => absurd far refused⟩
            intro window same
            cases same
            refine ⟨field_length reaches, fun _ => ⟨⟨size, known, by omega⟩, ?_⟩⟩
            intro buf room
            exact ⟨later, readInto_window regular range covered holds chunkAt endAt solid some_
              within room fetched reaches⟩

end Main

/-- Over any tables that a filesystem can be made of and any cache that nobody else is using, a
borrowed read agrees with a copied one unless the range leaves the word in a last chunk that is no
hole and ends at the last 64-bit offset. -/
theorem borrowed_agrees_iff {image : Format.Image} {tables : Tables} {fs : Filesystem}
    (made : Filesystem.ofTables image tables = .ok fs) {inode : UInt32}
    (regular : fs.kind inode = .ok .regular) (libs : Libraries) (budget : Nat) (offset : UInt64)
    (len : Nat) {cache : Inner} (accounted : Accounted cache)
    (idle : ∀ block, cache.blocks block ≠ some .loading) :
    Agrees libs budget fs inode offset.toNat len cache ↔ ¬ Saturates fs inode offset.toNat len :=
  agrees_iff (derived_of_ofTables made) regular offset.toNat_lt accounted idle

section Inputs

/-- A file of `u64::MAX` bytes: a hole and, behind it, three bytes of a block. -/
def hollowTables : Tables :=
  { rootTables [97] 1 [0o040755, 0o100644] with
    chunks := [⟨1, largeHoleSentinel, 0⟩, ⟨0, 0, 3⟩], chunkTable := [0, 2]
    holeBlockIndex := some 1, largeHoleSize := [18446744073709551612] }

def hollow : Filesystem :=
  filesystem climbingImage hollowTables [18446744073709551612, 18446744073709551615]
    ⟨0, 2, 1, 2, 2, 2, 2⟩

theorem hollow_made : Filesystem.ofTables climbingImage hollowTables = .ok hollow :=
  ofTables_unpacked rfl rfl (by decide) (by decide)

/-- One byte of the file is left at this offset; two are lent. -/
theorem borrowed_past_end :
    (hollow.readBorrowed libraries 0 1 18446744073709551614 2 .empty).map Prod.fst =
        some (.ok (some [108, 108])) ∧
      ¬ Agrees libraries 0 hollow 1 18446744073709551614 2 .empty := by
  have lent : (hollow.readBorrowed libraries 0 1 18446744073709551614 2 .empty).map Prod.fst =
      some (.ok (some [108, 108])) := by decide +kernel
  refine ⟨lent, ?_⟩
  rintro ⟨result, after, read, -, refuses⟩
  have size : hollow.fileSize 1 = .ok 18446744073709551615 := by decide
  rw [read, refuses (by decide) (Or.inr ⟨_, size, by decide⟩)] at lent
  cases lent

/-- Three bytes from the first of them on are within their chunk. -/
theorem borrowed_agrees_hollow :
    Agrees libraries 0 hollow 1 18446744073709551612 3 .empty := by
  apply (borrowed_agrees_iff hollow_made (by decide) libraries 0 18446744073709551612 3
    accounted_empty (by intro block; simp [Inner.empty])).mpr
  rintro ⟨overflow, -⟩
  revert overflow
  decide

end Inputs

end Rdwarfs.Guarantees.BorrowedWindows
