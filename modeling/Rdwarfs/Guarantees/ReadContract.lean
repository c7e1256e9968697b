import Rdwarfs.Guarantees.BlockReads
import Rdwarfs.Guarantees.ChunkEnds
import Rdwarfs.Guarantees.OpenedFilesystem

/-!
# What a read returns

A file is the concatenation of its chunks, each a window of a decoded block or a run of
zeros. The read loop starts at the first chunk that reaches past the offset; from there on
it has written exactly the bytes between the offset and the chunk it is at, and what is
left of the buffer says how many are still wanted.
-/
namespace Rdwarfs.Guarantees.ReadContract

open Lib.Machine Lib.Oracle Source Source.Metadata Source.Fs Source.Codecs
open BlockReads CacheAccounting ChunkEnds OpenedFilesystem

variable (fs : Filesystem) (contents : UInt32 → Bytes)

/-- The bytes a chunk stands for. -/
def chunkBytes (chunk : Chunk) : Bytes :=
  if fs.isHoleChunk chunk then
    match fs.chunkLogicalLen chunk with
    | .ok len => List.replicate len 0
    | .error _ => []
  else field (contents chunk.block) chunk.offset.toNat chunk.size.toNat

def contentOf (chunks : List Chunk) : Bytes := chunks.flatMap (chunkBytes fs contents)

/-- A chunk that is not a hole lies inside the block it names. -/
def Fits (chunk : Chunk) : Prop :=
  fs.isHoleChunk chunk = false →
    chunk.block.toNat < fs.blockRecords.length ∧
      chunk.offset.toNat + chunk.size.toNat ≤ (contents chunk.block).length

variable {fs contents}

section Chunk

theorem chunkLogicalLen_of_block {chunk : Chunk} (block : fs.isHoleChunk chunk = false) :
    fs.chunkLogicalLen chunk = .ok chunk.size.toNat := by
  have ne : fs.holeBlockIndex ≠ some chunk.block := by simpa [Filesystem.isHoleChunk] using block
  simp [Filesystem.chunkLogicalLen, Fs.chunkLogicalLen, ne]

theorem chunkBytes_length {chunk : Chunk} {len : Nat} (fits : Fits fs contents chunk)
    (length : fs.chunkLogicalLen chunk = .ok len) :
    (chunkBytes fs contents chunk).length = len := by
  cases hole : fs.isHoleChunk chunk with
  | true => simp [chunkBytes, hole, length]
  | false =>
    have inside := (fits hole).2
    rw [chunkLogicalLen_of_block hole, Except.ok.injEq] at length
    simp only [chunkBytes, hole, Bool.false_eq_true, if_false, field, List.length_take,
      List.length_drop]
    omega

/-- How much the loop takes from a chunk that spans `cursor..stop`. -/
def takeAt (offset wantEnd room cursor stop : Nat) : Nat :=
  min (min wantEnd stop - max offset cursor) room

/-- One round of the loop, its arithmetic done. -/
theorem visit_eq {offset wantEnd room i cursor len : Nat} {chunk : Chunk}
    (chunkAt : fs.chunks[i]? = some chunk) (endAt : fs.chunkEnd[i]? = some (cursor + len))
    (length : fs.chunkLogicalLen chunk = .ok len) (word : cursor + len < wordLimit)
    (ordered : offset ≤ wantEnd) :
    fs.visit offset wantEnd room i = .ok (
      if cursor ≥ wantEnd then .stop
      else if cursor + len ≤ offset then .skip
      else if fs.isHoleChunk chunk then
        .zeros (takeAt offset wantEnd room cursor (cursor + len))
      else
        .copy chunk.block (chunk.offset.toNat + (offset - cursor))
          (chunk.offset.toNat + (offset - cursor) +
            takeAt offset wantEnd room cursor (cursor + len))) := by
  simp only [Filesystem.visit, index_of_getElem? chunkAt, index_of_getElem? endAt, length, ok_bind,
    subWord_of_le (Nat.le_add_left len cursor), subWord_of_le (Nat.le_add_right cursor len),
    Nat.add_sub_cancel_left, Nat.add_sub_cancel]
  by_cases past : cursor ≥ wantEnd
  · simp [past]
  · by_cases behind : cursor + len ≤ offset
    · simp [past, behind]
    · have span : min (min (wantEnd - cursor) len - (offset - cursor)) room =
          takeAt offset wantEnd room cursor (cursor + len) := by
        simp only [takeAt]
        omega
      simp only [past, behind, if_false]
      rw [subWord_of_le (by omega), ok_bind, subWord_of_le (by omega), ok_bind, span]
      cases hole : fs.isHoleChunk chunk with
      | true => simp
      | false =>
        have size : len = chunk.size.toNat := by
          rw [chunkLogicalLen_of_block hole, Except.ok.injEq] at length
          exact length.symm
        have offsetWord := chunk.offset.toNat_lt
        have sizeWord := chunk.size.toNat_lt
        have short : takeAt offset wantEnd room cursor (cursor + len) ≤ len := by
          simp only [takeAt]
          omega
        rw [wordLimit_eq] at *
        simp only [Bool.false_eq_true, if_false]
        rw [addWord_of_lt (by rw [wordLimit_eq]; omega), ok_bind,
          addWord_of_lt (by rw [wordLimit_eq]; omega)]
        rfl

/-- The window copied out of a block is a window of the chunk's own bytes. -/
theorem windowOf_eq {chunk : Chunk} (block : fs.isHoleChunk chunk = false)
    (fits : Fits fs contents chunk) {skip take : Nat} (inside : skip + take ≤ chunk.size.toNat) :
    windowOf fs contents chunk.block (chunk.offset.toNat + skip) (chunk.offset.toNat + skip + take) =
      .ok (((chunkBytes fs contents chunk).drop skip).take take) := by
  obtain ⟨index, bound⟩ := fits block
  have reach : chunk.offset.toNat + skip + take ≤ (contents chunk.block).length := by omega
  simp only [windowOf, List.getElem?_eq_getElem index, Filesystem.copyWindow,
    refuseIf_of_not (Nat.not_lt.mpr reach), ok_bind, chunkBytes, block, Bool.false_eq_true, if_false]
  rw [slice_of_le (by omega) reach, field, List.drop_take, List.drop_drop, List.take_take,
    Nat.add_sub_cancel_left, Nat.min_eq_left (by omega)]

end Chunk

section Loop

/-- What the loop still has to write when it stands at `cursor`: the wanted part of the
remaining chunks. -/
def pending (fs : Filesystem) (contents : UInt32 → Bytes) (offset cursor room : Nat)
    (chunks : List Chunk) : Bytes :=
  ((contentOf fs contents chunks).drop (offset - cursor)).take room

theorem contentOf_cons (chunk : Chunk) (chunks : List Chunk) :
    contentOf fs contents (chunk :: chunks) =
      chunkBytes fs contents chunk ++ contentOf fs contents chunks := rfl

/-- The content ends where the last chunk does. -/
theorem contentOf_bound {cursor : Nat} {chunks : List Chunk} {ends : List Nat}
    (runs : Runs fs.chunkLogicalLen cursor chunks ends) (word : cursor < wordLimit)
    (fits : ∀ chunk ∈ chunks, Fits fs contents chunk) :
    cursor + (contentOf fs contents chunks).length < wordLimit ∧
      cursor + (contentOf fs contents chunks).length = ends.getLastD cursor := by
  induction runs with
  | nil cursor => exact ⟨word, rfl⟩
  | @cons cursor len chunk chunks ends here word' rest ih =>
    have length := chunkBytes_length (fits chunk (by simp)) here
    obtain ⟨bound, last⟩ := ih word' fun later member => fits later (List.mem_cons_of_mem _ member)
    rw [contentOf_cons, List.length_append, length, List.getLastD_cons]
    exact ⟨by omega, by omega⟩

/-- The wanted part of a chunk, and then of the others. -/
theorem pending_cons {offset cursor room : Nat} {chunk : Chunk} {chunks : List Chunk}
    {stop : Nat} (length : (chunkBytes fs contents chunk).length = stop - cursor)
    (ordered : cursor ≤ stop) (past : offset < stop) :
    pending fs contents offset cursor room (chunk :: chunks) =
      ((chunkBytes fs contents chunk).drop (offset - cursor)).take room ++
        pending fs contents offset stop (room - (stop - max offset cursor)) chunks := by
  have short : offset - cursor ≤ (chunkBytes fs contents chunk).length := by omega
  simp only [pending, contentOf_cons, List.drop_append_of_le_length short, List.take_append,
    List.length_drop, length, show offset - stop = 0 by omega, List.drop_zero]
  congr 2
  omega

variable {offset want : Nat} {restChunks : List Chunk} {restEnds : List Nat}

/-- The loop invariant: what is left of the buffer is what is wanted after the position
reached so far, `max offset cursor`. -/
theorem readFrom_runs {cursor : Nat} {chunks : List Chunk} {ends : List Nat}
    (runs : Runs fs.chunkLogicalLen cursor chunks ends) (word : cursor < wordLimit)
    (offsetWord : offset < wordLimit) (fits : ∀ chunk ∈ chunks, Fits fs contents chunk) {i : Nat}
    (chunksAt : fs.chunks.drop i = chunks ++ restChunks)
    (endsAt : fs.chunkEnd.drop i = ends ++ restEnds) {written remaining : Bytes}
    (room : remaining.length = offset + want - max offset cursor) :
    readFrom fs contents offset (saturatingAddWord offset want) (List.range' i chunks.length)
        written remaining =
      .ok (written ++ pending fs contents offset cursor remaining.length chunks,
        remaining.drop (pending fs contents offset cursor remaining.length chunks).length) := by
  have wantEnd := saturatingAddWord_eq offset want
  induction runs generalizing i written remaining with
  | nil cursor => simp [readFrom, pending, contentOf]
  | @cons cursor len chunk chunks ends here word' rest ih =>
    have length := chunkBytes_length (fits chunk (by simp)) here
    have chunkAt : fs.chunks[i]? = some chunk := by
      have first := congrArg (·[0]?) chunksAt
      simpa using first
    have endAt : fs.chunkEnd[i]? = some (cursor + len) := by
      have first := congrArg (·[0]?) endsAt
      simpa using first
    have chunksNext : fs.chunks.drop (i + 1) = chunks ++ restChunks := by
      rw [← List.tail_drop, chunksAt]
      rfl
    have endsNext : fs.chunkEnd.drop (i + 1) = ends ++ restEnds := by
      rw [← List.tail_drop, endsAt]
      rfl
    have onward := fun (written remaining : Bytes) => @ih word'
      (fun later member => fits later (List.mem_cons_of_mem _ member)) _ chunksNext endsNext
      written remaining
    rw [List.length_cons, List.range'_succ, readFrom]
    by_cases full : remaining = []
    · simp [full, pending]
    · have some_ : 0 < remaining.length := List.length_pos_iff.mpr full
      rw [if_neg full, visit_eq chunkAt endAt here word' (by omega), ok_bind]
      by_cases past : cursor ≥ saturatingAddWord offset want
      · -- only a saturated end is passed with room left, and then nothing follows
        have bound := (contentOf_bound (.cons here word' rest) word fits).1
        have empty : contentOf fs contents (chunk :: chunks) = [] := by
          rw [wordLimit_eq] at *
          exact List.length_eq_zero_iff.mp (by omega)
        simp [past, pending, empty]
      · by_cases behind : cursor + len ≤ offset
        · have skip : pending fs contents offset cursor remaining.length (chunk :: chunks) =
              pending fs contents offset (cursor + len) remaining.length chunks := by
            have gone : (chunkBytes fs contents chunk).drop (offset - cursor) = [] :=
              List.drop_eq_nil_of_le (by omega)
            simp only [pending, contentOf_cons, List.drop_append, length, gone, List.nil_append,
              Nat.sub_sub]
          simp only [past, behind, if_false, if_true, skip]
          exact onward written remaining (by omega)
        · have split := @pending_cons fs contents offset cursor remaining.length chunk chunks _
            (length.trans (Nat.add_sub_cancel_left cursor len).symm) (Nat.le_add_right cursor len)
            (Nat.lt_of_not_le behind)
          have took : takeAt offset (saturatingAddWord offset want) remaining.length cursor
              (cursor + len) = min (len - (offset - cursor)) remaining.length := by
            rw [wordLimit_eq] at *
            simp only [takeAt]
            omega
          generalize takeAt offset (saturatingAddWord offset want) remaining.length cursor
            (cursor + len) = take at took
          have source : ((chunkBytes fs contents chunk).drop (offset - cursor)).take
              remaining.length = ((chunkBytes fs contents chunk).drop (offset - cursor)).take take := by
            rw [took, List.take_eq_take_iff, List.length_drop, length]
            omega
          have sourceLength : (((chunkBytes fs contents chunk).drop (offset - cursor)).take
              take).length = take := by
            rw [List.length_take, List.length_drop, length]
            omega
          have next := onward
            (written ++ ((chunkBytes fs contents chunk).drop (offset - cursor)).take take)
            (remaining.drop take) (by rw [List.length_drop]; omega)
          have left : (remaining.drop take).length =
              remaining.length - (cursor + len - max offset cursor) := by
            rw [List.length_drop]
            omega
          simp only [past, behind, if_false]
          rw [split, source]
          rw [left, List.append_assoc, List.drop_drop] at next
          rw [List.length_append, sourceLength]
          cases hole : fs.isHoleChunk chunk with
          | true =>
            have zeros : List.replicate take 0 =
                ((chunkBytes fs contents chunk).drop (offset - cursor)).take take := by
              simp only [chunkBytes, hole, here, if_true, List.drop_replicate, List.take_replicate]
              congr 1
              omega
            simp only [if_true, zeros]
            exact next
          | false =>
            have size : chunk.size.toNat = len := by
              have same := chunkLogicalLen_of_block hole
              rw [here, Except.ok.injEq] at same
              exact same.symm
            simp only [Bool.false_eq_true, if_false]
            rw [windowOf_eq hole (fits chunk (by simp)) (by omega), ok_bind, sourceLength]
            exact next

end Loop

section File

/-- The chunks before the first that reaches past the offset hold nothing that is wanted. -/
theorem runs_covering {cursor offset : Nat} {chunks : List Chunk} {ends : List Nat}
    (runs : Runs fs.chunkLogicalLen cursor chunks ends) (word : cursor < wordLimit)
    (before : cursor ≤ offset) (fits : ∀ chunk ∈ chunks, Fits fs contents chunk) {first : Nat}
    (found : first = partitionPoint (fun stop => decide (stop ≤ offset)) ends) :
    ∃ reached, reached ≤ offset ∧ reached < wordLimit ∧
      Runs fs.chunkLogicalLen reached (chunks.drop first) (ends.drop first) ∧
      ∀ room, pending fs contents offset cursor room chunks =
        pending fs contents offset reached room (chunks.drop first) := by
  induction runs generalizing first with
  | nil cursor =>
    subst found
    exact ⟨cursor, before, word, .nil cursor, fun _ => rfl⟩
  | @cons cursor len chunk chunks ends here word' rest ih =>
    by_cases behind : cursor + len ≤ offset
    · obtain ⟨reached, le, wordReached, runs, same⟩ := ih word' behind
        (fun later member => fits later (List.mem_cons_of_mem _ member)) rfl
      have next : first = partitionPoint (fun stop => decide (stop ≤ offset)) ends + 1 := by
        rw [found, partitionPoint, List.takeWhile_cons_of_pos (by simpa using behind),
          List.length_cons, partitionPoint]
      subst next
      refine ⟨reached, le, wordReached, runs, fun room => ?_⟩
      have length := chunkBytes_length (fits chunk (by simp)) here
      have gone : (chunkBytes fs contents chunk).drop (offset - cursor) = [] :=
        List.drop_eq_nil_of_le (by omega)
      rw [List.drop_succ_cons, ← same room]
      simp only [pending, contentOf_cons, List.drop_append, length, gone, List.nil_append,
        Nat.sub_sub]
    · have here_ : first = 0 := by
        rw [found, partitionPoint, List.takeWhile_cons_of_neg (by simpa using behind)]
        rfl
      subst here_
      exact ⟨cursor, before, word, .cons here word' rest, fun _ => rfl⟩

theorem chunkRange_eq_ok {inode : UInt32} {start stop : Nat}
    (range : fs.chunkRange inode = .ok (start, stop)) :
    ∃ (slot : Nat) (first last : UInt32), fs.chunkTable[slot]? = some first ∧
      fs.chunkTable[slot + 1]? = some last ∧
      first.toNat = start ∧ last.toNat = stop ∧ start ≤ stop ∧ stop ≤ fs.chunks.length := by
  simp only [Filesystem.chunkRange, bind_eq_ok, refuseIf_eq_ok, index_eq_ok, pure_eq_ok,
    Except.ok.injEq, Prod.mk.injEq, Arith.add_checked_eq_ok] at range
  obtain ⟨slot, _, next, ⟨_, rfl⟩, _, _, first, firstAt, last, lastAt, _, inside, rfl, rfl⟩ := range
  exact ⟨slot, first, last, firstAt, lastAt, rfl, rfl, by omega, by omega⟩

/-- A window from inside on, and what follows it. -/
theorem drop_window {α : Type} (xs : List α) {start count first : Nat}
    (inside : first ≤ ((xs.drop start).take count).length) :
    xs.drop (start + first) = ((xs.drop start).take count).drop first ++ (xs.drop start).drop count := by
  rw [← List.drop_append_of_le_length inside, List.take_append_drop, List.drop_drop]

variable {start stop : Nat} {ends : List Nat}

/-- The ends of an accepted chunk range, in a filesystem whose tables were derived. -/
theorem runs_of_chunkRange (derived : Derived fs) {inode : UInt32}
    (range : fs.chunkRange inode = .ok (start, stop)) :
    ∃ ends, Runs fs.chunkLogicalLen 0 ((fs.chunks.drop start).take (stop - start)) ends ∧
      (fs.chunkEnd.drop start).take (stop - start) = ends ∧ ends.length = stop - start ∧
      start ≤ stop ∧ stop ≤ fs.chunkEnd.length := by
  obtain ⟨slot, first, last, firstAt, lastAt, rfl, rfl, ordered, inside⟩ := chunkRange_eq_ok range
  obtain ⟨ends, runs, same⟩ := buildChunkEnds_slot derived.chunkEnd firstAt lastAt
  have count : ends.length = last.toNat - first.toNat := by
    rw [runs.length_eq, List.length_take, List.length_drop]
    omega
  rw [count] at same
  have total := buildChunkEnds_length derived.chunkEnd
  exact ⟨ends, runs, same, count, ordered, by omega⟩

/-- `file_size` is the last of the ends. -/
theorem fileSize_last {inode : UInt32} (regular : fs.kind inode = .ok .regular)
    (range : fs.chunkRange inode = .ok (start, stop))
    (same : (fs.chunkEnd.drop start).take (stop - start) = ends)
    (count : ends.length = stop - start) : fs.fileSize inode = .ok (ends.getLastD 0) := by
  simp only [Filesystem.fileSize, regular, range, ok_bind, ne_eq, not_true_eq_false, if_false]
  split
  · rename_i nonempty
    have lastAt : fs.chunkEnd[stop - 1]? = ends[ends.length - 1]? := by
      rw [← same, List.getElem?_take_of_lt (by rw [same]; omega), List.getElem?_drop, same, count]
      congr 1
      omega
    have inside : ends.length - 1 < ends.length := by omega
    rw [index_of_getElem? (lastAt.trans (List.getElem?_eq_getElem inside)),
      List.getLastD_eq_getLast?, List.getLast?_eq_getElem?, List.getElem?_eq_getElem inside]
    rfl
  · rename_i empty
    have none_ : ends = [] := List.length_eq_zero_iff.mp (by omega)
    rw [none_]
    rfl

/-- `file_size` is the length of the content. -/
theorem fileSize_eq {inode : UInt32} (regular : fs.kind inode = .ok .regular)
    (range : fs.chunkRange inode = .ok (start, stop))
    (runs : Runs fs.chunkLogicalLen 0 ((fs.chunks.drop start).take (stop - start)) ends)
    (same : (fs.chunkEnd.drop start).take (stop - start) = ends) (count : ends.length = stop - start)
    (fits : ∀ chunk ∈ (fs.chunks.drop start).take (stop - start), Fits fs contents chunk) :
    fs.fileSize inode =
      .ok (contentOf fs contents ((fs.chunks.drop start).take (stop - start))).length := by
  have last := (contentOf_bound runs (by decide) fits).2
  rw [Nat.zero_add] at last
  rw [fileSize_last regular range same count, last]

/-- Over the decoded blocks, `read_into` writes the wanted part of the content. -/
theorem readOutcome_eq (derived : Derived fs) {inode : UInt32}
    (regular : fs.kind inode = .ok .regular) (range : fs.chunkRange inode = .ok (start, stop))
    (fits : ∀ chunk ∈ (fs.chunks.drop start).take (stop - start), Fits fs contents chunk)
    {offset : Nat} (offsetWord : offset < wordLimit) (buf : Bytes) :
    let wanted := ((contentOf fs contents ((fs.chunks.drop start).take (stop - start))).drop
      offset).take buf.length
    readOutcome fs contents inode offset buf =
      .ok (wanted.length, wanted ++ buf.drop wanted.length) := by
  obtain ⟨ends, runs, same, count, ordered, inside⟩ := runs_of_chunkRange derived range
  have sliced : (slice fs.chunkEnd start stop : Result (List Nat)) = .ok ends := by
    rw [slice_of_le ordered inside, same]
  generalize found : partitionPoint (fun stop => decide (stop ≤ offset)) ends = first
  obtain ⟨reached, le, word, suffix, pendingEq⟩ :=
    runs_covering runs (by decide) (Nat.zero_le offset) fits found.symm
  have short : first ≤ ends.length := by
    rw [← found]
    exact (List.takeWhile_sublist _).length_le
  have size := runs.length_eq
  have chunksAt := @drop_window _ fs.chunks start _ _ (size ▸ short)
  have endsAt := @drop_window _ fs.chunkEnd start _ _ (same.symm ▸ short)
  rw [same] at endsAt
  have loop := @readFrom_runs fs contents offset buf.length _ _ _ _ _ suffix word offsetWord
    (fun chunk member => fits chunk (List.mem_of_mem_drop member)) _ chunksAt endsAt [] buf
    (by omega)
  rw [List.length_drop, ← size, count, ← pendingEq, Nat.sub_sub] at loop
  simp only [readOutcome, regular, range, ok_bind, Filesystem.chunksCovering, sliced, found,
    refuseIf_of_not (not_not.mpr rfl), pure_eq_ok]
  rw [loop]
  simp [pending]

variable {libs : Libraries} {build : Build} {image : Format.Image}

/-- The contract of `read_into`: as many bytes as the buffer takes and the file has from the
offset on, the file's own, whatever prefixes the cache already holds; the rest of the buffer
is left as it was. -/
theorem readInto_contract (opened : Filesystem.openImage libs build image = .ok fs)
    (decodes : DecodesTo libs fs contents) {inode : UInt32}
    (regular : fs.kind inode = .ok .regular) (range : fs.chunkRange inode = .ok (start, stop))
    (fits : ∀ chunk ∈ (fs.chunks.drop start).take (stop - start), Fits fs contents chunk)
    (offset : UInt64) (buf : Bytes) (budget : Nat) {cache : Inner} (accounted : Accounted cache)
    (prior : ∀ block entry, cache.blocks block = some entry → ∃ bytes, entry = .ready bytes ∧
      block.toNat < fs.blockRecords.length ∧ bytes <+: contents block) :
    ∃ size n out after, fs.fileSize inode = .ok size ∧
      (fs.readInto inode offset.toNat buf).run (fs.decodeBlock libs budget) cache =
        some (.ok (n, out), after) ∧
      n = min buf.length (size - offset.toNat) ∧ out.length = buf.length ∧
      out.take n = ((contentOf fs contents ((fs.chunks.drop start).take (stop - start))).drop
        offset.toNat).take n ∧
      out.drop n = buf.drop n := by
  have derived := derived_of_open opened
  obtain ⟨ends, runs, same, count, _, _⟩ := runs_of_chunkRange derived range
  have serves : Serves fs contents cache := by
    refine ⟨accounted, fun block bytes ready => ?_, fun block marked => ?_⟩
    · obtain ⟨own, eq, inside, isPrefix⟩ := prior block _ ready
      cases eq
      exact ⟨inside, isPrefix⟩
    · obtain ⟨_, absurd_, _⟩ := prior block _ marked
      cases absurd_
  obtain ⟨after, ran, _⟩ := readInto_alone decodes budget serves inode offset.toNat buf
  rw [readOutcome_eq derived regular range fits offset.toNat_lt buf] at ran
  refine ⟨_, _, _, after, fileSize_eq regular range runs same count fits, ran, ?_, ?_, ?_, ?_⟩
  · simp
  · simp only [List.length_append, List.length_take, List.length_drop]
    omega
  · rw [List.take_left']
    · rw [List.take_eq_take_iff]
      simp
    · rfl
  · rw [List.drop_left']
    rfl

/-- The block of `named` decodes to `hello`, whole or in part. -/
theorem named_decodes : DecodesTo namedLibraries named fun _ => helloBlock := by
  have single : named.blockRecords = [namedBlock] := by decide
  have read : named.image.sectionBytes namedBlock =
      .ok (packedBytes 0 0 2 0xec1285e06c231d81 PartialDecode.helloFrame) := by decide +kernel
  have whole : decompress namedLibraries .zstd PartialDecode.helloFrame 16 = .ok helloBlock := by
    decide
  apply decodesTo_of_single single read (by decide +kernel) rfl whole (by decide)
  intro want within
  have small : want < sliceLimit := Nat.lt_of_le_of_lt within (by decide)
  have produces := PartialDecode.helloFrame_produces DecodedCap.nativeBuild rfl
  refine Or.inr ⟨helloBlock.take want, ?_, List.take_prefix _ _, by rw [List.length_take]⟩
  rw [namedLibraries, decompressPrefix_libraries]
  exact PartialDecode.decompressPrefix_front produces (Or.inr small)

/-- The two bytes after offset 3 of the file `abcd`, with `he` cached beforehand. -/
theorem readInto_contract_named :
    ∃ size n out after, named.fileSize 1 = .ok size ∧
      (named.readInto 1 3 [9, 9, 9, 9]).run (named.decodeBlock namedLibraries 0)
        ⟨fun _ => false, 2, Function.update (fun _ => none) 0 (some (.ready [104, 101])), [0]⟩ =
        some (.ok (n, out), after) ∧
      n = min 4 (size - 3) ∧ out.length = 4 ∧
      out.take n = ((contentOf named (fun _ => helloBlock)
        ((named.chunks.drop 0).take 2)).drop 3).take n ∧
      out.drop n = [9, 9, 9, 9].drop n := by
  refine readInto_contract open_named named_decodes (by decide)
    (show named.chunkRange 1 = .ok (0, 2) by decide) ?_ 3 [9, 9, 9, 9] 0 ⟨by decide, ?_, by decide⟩ ?_
  · unfold Fits
    decide
  · intro block
    by_cases same : block = 0 <;> simp [same]
  · intro block entry found
    by_cases same : block = 0
    · subst same
      exact ⟨[104, 101], by simpa using found.symm, by decide, by decide⟩
    · simp [same] at found

end File

end Rdwarfs.Guarantees.ReadContract
