import Rdwarfs.Guarantees.CacheAccounting
import Rdwarfs.Source.Fs.Read
import Mathlib.Data.List.Infix

/-!
# What a read may learn from the block cache

A cache may answer a call of `decode_block` with any prefix of the block that reaches far
enough, or with the whole of a shorter block. `readFrom` is the read loop over the decoded
blocks themselves. Under every permitted answer, whatever block it happens to hold, the
read loop of the code ends as `readFrom` does; and a cache whose entries are prefixes
gives only permitted answers.
-/
namespace Rdwarfs.Guarantees.BlockReads

open Lib.Machine Lib.Oracle Lib.Oracle.Prog Source Source.Fs Source.Codecs CacheAccounting

/-- Every block record decodes in full to `contents` of its index, within the block size,
and a partial decode of no more than a block gives a prefix of it that reaches as far as asked,
where there is one. -/
structure DecodesTo (libs : Libraries) (fs : Filesystem) (contents : UInt32 → Bytes) : Prop where
  whole : ∀ block record, fs.blockRecords[block.toNat]? = some record →
    fs.image.decompressSection libs record fs.blockSize.toNat = .ok (contents block)
  bounded : ∀ block record, fs.blockRecords[block.toNat]? = some record →
    (contents block).length ≤ fs.blockSize.toNat
  partly : ∀ block record want, fs.blockRecords[block.toNat]? = some record →
    want ≤ fs.blockSize.toNat →
    fs.image.decompressSectionPrefix libs record want = .ok none ∨
    ∃ bytes, fs.image.decompressSectionPrefix libs record want = .ok (some bytes) ∧
      bytes <+: contents block ∧ min want (contents block).length ≤ bytes.length

/-- Once a section's hash fits, every load hands its payload to the codec. -/
theorem load_of_payload {libs : Libraries} {image : Format.Image} {record : Format.SectionRecord}
    {bytes payload : Bytes} (read : image.sectionBytes record = .ok bytes)
    (verified : Format.Image.verifyXxh3 libs record.header bytes = .ok ())
    (behind : (slice bytes Format.headerLen bytes.length : Result Bytes) = .ok payload) :
    (∀ cap, image.decompressSection libs record cap =
      decompress libs record.header.compression payload cap) ∧
    ∀ needed, image.decompressSectionPrefix libs record needed =
      decompressPrefix libs record.header.compression payload needed := by
  simp [Format.Image.decompressSection, Format.Image.decompressSectionPrefix, read, verified, behind]

theorem record_of_single {fs : Filesystem} {only record : Format.SectionRecord}
    (single : fs.blockRecords = [only]) {i : Nat} (found : fs.blockRecords[i]? = some record) :
    record = only :=
  List.mem_singleton.mp (single ▸ List.mem_of_getElem? found)

/-- With one block, that is a matter of its payload. -/
theorem decodesTo_of_single {libs : Libraries} {fs : Filesystem} {only : Format.SectionRecord}
    {bytes payload content : Bytes} (single : fs.blockRecords = [only])
    (read : fs.image.sectionBytes only = .ok bytes)
    (verified : Format.Image.verifyXxh3 libs only.header bytes = .ok ())
    (behind : (slice bytes Format.headerLen bytes.length : Result Bytes) = .ok payload)
    (whole : decompress libs only.header.compression payload fs.blockSize.toNat = .ok content)
    (bounded : content.length ≤ fs.blockSize.toNat)
    (partly : ∀ want ≤ fs.blockSize.toNat,
      decompressPrefix libs only.header.compression payload want = .ok none ∨
      ∃ front, decompressPrefix libs only.header.compression payload want = .ok (some front) ∧
        front <+: content ∧ min want content.length ≤ front.length) :
    DecodesTo libs fs fun _ => content := by
  obtain ⟨wholes, parts⟩ := load_of_payload read verified behind
  constructor
  · intro block record found
    rw [record_of_single single found, wholes, whole]
  · exact fun _ _ _ => bounded
  · intro block record want found within
    rw [record_of_single single found, parts]
    exact partly want within

section Answers

variable (fs : Filesystem) (contents : UInt32 → Bytes)

/-- `bytes` is a prefix of its block and reaches as far as the query needs. -/
def Reaches (query : BlockQuery) (bytes : Bytes) : Prop :=
  bytes <+: contents query.block ∧ min query.needed (contents query.block).length ≤ bytes.length

/-- The answers of `decode_block`. -/
def Permits (query : BlockQuery) (answer : Result Bytes) : Prop :=
  match fs.blockRecords[query.block.toNat]? with
  | none => answer = fail (corrupt s!"block {query.block} out of range")
  | some _ => ∃ bytes, answer = .ok bytes ∧ Reaches contents query bytes

variable {fs contents}

theorem permits_ok {query : BlockQuery} {bytes : Bytes} :
    Permits fs contents query (.ok bytes) ↔
      query.block.toNat < fs.blockRecords.length ∧ Reaches contents query bytes := by
  unfold Permits
  cases record : fs.blockRecords[query.block.toNat]? with
  | none =>
    have beyond := List.getElem?_eq_none_iff.mp record
    simp [Nat.not_lt.mpr beyond]
  | some found =>
    have inside := (List.getElem?_eq_some_iff.mp record).1
    simp [inside]

theorem permits_error {query : BlockQuery} {failure : Failure Error}
    (permitted : Permits fs contents query (.error failure)) :
    fs.blockRecords[query.block.toNat]? = none ∧
      failure = .err (corrupt s!"block {query.block} out of range") := by
  unfold Permits at permitted
  cases record : fs.blockRecords[query.block.toNat]? with
  | none => simpa [record] using permitted
  | some found => simp [record] at permitted

/-- The arithmetic of `decode_block`: however it decodes, the result reaches far enough. -/
theorem permits_decodeRecord {libs : Libraries} {query : BlockQuery}
    (decodes : ∀ record, fs.blockRecords[query.block.toNat]? = some record →
      fs.image.decompressSection libs record fs.blockSize.toNat = .ok (contents query.block) ∧
      (contents query.block).length ≤ fs.blockSize.toNat ∧
      ∀ want, want ≤ fs.blockSize.toNat →
        fs.image.decompressSectionPrefix libs record want = .ok none ∨
        ∃ bytes, fs.image.decompressSectionPrefix libs record want = .ok (some bytes) ∧
          bytes <+: contents query.block ∧ min want (contents query.block).length ≤ bytes.length)
    (retryInFull : Bool) :
    Permits fs contents query (fs.decodeRecord libs query retryInFull) := by
  unfold Permits
  cases found : fs.blockRecords[query.block.toNat]? with
  | none => simp [Filesystem.decodeRecord, found]
  | some record =>
    obtain ⟨whole, bounded, partly⟩ := decodes record found
    have full : Reaches contents query (contents query.block) :=
      ⟨List.prefix_refl _, Nat.min_le_right _ _⟩
    simp only [Filesystem.decodeRecord, found, okOr_some, ok_bind]
    split
    · rename_i small
      cases partly (min (max query.needed prefixGranularity) fs.blockSize.toNat)
          (Nat.min_le_right _ _) with
      | inl none_ => exact ⟨contents query.block, by simp only [none_, ok_bind, whole], full⟩
      | inr some_ =>
        obtain ⟨bytes, read, isPrefix, reaches⟩ := some_
        have fits := Nat.le_min.mp small.2
        exact ⟨bytes, by simp only [read, ok_bind], isPrefix, by omega⟩
    · exact ⟨contents query.block, by simp only [whole], full⟩

theorem decodeRecord_permits {libs : Libraries} (decodes : DecodesTo libs fs contents)
    (query : BlockQuery) (retryInFull : Bool) :
    Permits fs contents query (fs.decodeRecord libs query retryInFull) :=
  permits_decodeRecord (fun record found => ⟨decodes.whole _ record found,
    decodes.bounded _ record found, fun want => decodes.partly _ record want found⟩) retryInFull

end Answers

section Reference

variable (fs : Filesystem) (contents : UInt32 → Bytes)

/-- `copyWindow` on the decoded block itself. -/
def windowOf (block : UInt32) (blockStart blockEnd : Nat) : Result Bytes :=
  match fs.blockRecords[block.toNat]? with
  | none => fail (corrupt s!"block {block} out of range")
  | some _ => Filesystem.copyWindow (contents block) blockStart blockEnd

/-- The read loop with the decoded blocks at hand. -/
def readFrom (offset wantEnd : Nat) : List Nat → Bytes → Bytes → Result (Bytes × Bytes)
  | [], written, remaining => .ok (written, remaining)
  | i :: rest, written, remaining =>
    if remaining = [] then .ok (written, remaining)
    else fs.visit offset wantEnd remaining.length i >>= fun visited =>
      match visited with
      | .stop => .ok (written, remaining)
      | .skip => readFrom offset wantEnd rest written remaining
      | .zeros take =>
        readFrom offset wantEnd rest (written ++ List.replicate take 0) (remaining.drop take)
      | .copy block blockStart blockEnd =>
        windowOf fs contents block blockStart blockEnd >>= fun src =>
          readFrom offset wantEnd rest (written ++ src) (remaining.drop src.length)

/-- The whole of `read_into` with the decoded blocks at hand. -/
def readOutcome (inode : UInt32) (offset : Nat) (buf : Bytes) : Result (Nat × Bytes) := do
  let kind ← fs.kind inode
  refuseIf (kind ≠ .regular) (corrupt s!"inode {inode} is not a regular file")
  let (start, stop) ← fs.chunkRange inode
  let covering ← fs.chunksCovering start stop offset
  let (written, remaining) ←
    readFrom fs contents offset (saturatingAddWord offset buf.length) covering [] buf
  return (written.length, written ++ remaining)

variable {fs contents}

/-- A prefix that reaches the window's end shows the same window, and a shorter one is the
whole block, so that even the error is the same. -/
theorem copyWindow_of_reaches {block : UInt32} {blockStart blockEnd : Nat} {bytes : Bytes}
    (reaches : Reaches contents ⟨block, blockEnd⟩ bytes) :
    Filesystem.copyWindow bytes blockStart blockEnd =
      Filesystem.copyWindow (contents block) blockStart blockEnd := by
  obtain ⟨⟨rest, split⟩, long⟩ := reaches
  simp only at split long
  have total : (contents block).length = bytes.length + rest.length := by
    rw [← split, List.length_append]
  by_cases inside : blockEnd ≤ bytes.length
  · have insideBlock : blockEnd ≤ (contents block).length := by omega
    simp only [Filesystem.copyWindow, refuseIf_of_not (Nat.not_lt.mpr inside),
      refuseIf_of_not (Nat.not_lt.mpr insideBlock), ok_bind]
    by_cases ordered : blockStart ≤ blockEnd
    · rw [slice_of_le ordered inside, slice_of_le ordered insideBlock, ← split,
        List.drop_append_of_le_length (by omega), List.take_append_of_le_length]
      rw [List.length_drop]
      omega
    · simp [slice, ordered]
  · have whole : rest = [] := List.length_eq_zero_iff.mp (by omega)
    rw [← split, whole, List.append_nil]

/-- A held block is a prefix of what its record decodes to. -/
def Held (fs : Filesystem) (contents : UInt32 → Bytes) : Option (UInt32 × Bytes) → Prop
  | none => True
  | some (block, bytes) => block.toNat < fs.blockRecords.length ∧ bytes <+: contents block

/-- Held or fetched, the bytes reach as far as the query needs. -/
theorem reach_determined {α : Type} {held : Option (UInt32 × Bytes)} {query : BlockQuery}
    {next : Bytes → Reading α} {result : Result α} (holds : Held fs contents held)
    (values : query.block.toNat < fs.blockRecords.length → ∀ bytes,
      Reaches contents query bytes → Determined (Permits fs contents) (next bytes) result)
    (missing : fs.blockRecords[query.block.toNat]? = none →
      result = fail (corrupt s!"block {query.block} out of range")) :
    Determined (Permits fs contents) (Filesystem.reach held query >>= next) result := by
  rcases Filesystem.reach_cases held query next with asks | ⟨bytes, rfl, long, here⟩
  · rw [asks, question_bind]
    refine determined_ask (fun bytes permitted => ?_) fun failure permitted => ?_
    · obtain ⟨inside, reaches⟩ := permits_ok.mp permitted
      exact values inside bytes reaches
    · obtain ⟨absent, rfl⟩ := permits_error permitted
      exact missing absent
  · rw [here]
    exact values holds.1 bytes ⟨holds.2, Nat.le_trans (Nat.min_le_left _ _) long⟩

theorem readChunks_determined (offset wantEnd : Nat) {chunks : List Nat} {written remaining : Bytes}
    {held : Option (UInt32 × Bytes)} (holds : Held fs contents held) :
    Determined (Permits fs contents) (fs.readChunks offset wantEnd chunks written remaining held)
      (readFrom fs contents offset wantEnd chunks written remaining) := by
  induction chunks generalizing written remaining held with
  | nil => exact determined_done _ _
  | cons i rest ih =>
    rw [Filesystem.readChunks, readFrom]
    split
    · exact determined_done _ _
    · cases visited : fs.visit offset wantEnd remaining.length i with
      | error failure => exact determined_done _ _
      | ok step =>
        simp only [lift_ok_bind, ok_bind]
        cases step with
        | stop => exact determined_done _ _
        | skip => exact ih holds
        | zeros take => exact ih holds
        | copy block blockStart blockEnd =>
          refine reach_determined holds (fun inside bytes reaches => ?_) fun absent => ?_
          · have record : fs.blockRecords[block.toNat]? = some fs.blockRecords[block.toNat] :=
              List.getElem?_eq_getElem inside
            simp only [windowOf, record, copyWindow_of_reaches reaches]
            cases Filesystem.copyWindow (contents block) blockStart blockEnd with
            | error failure => exact determined_done _ _
            | ok src => exact ih ⟨inside, reaches.1⟩
          · simp only [windowOf, absent, error_bind]

/-- Whatever permitted answers it is given, `read_into` ends as over the decoded blocks. -/
theorem readInto_determined (inode : UInt32) (offset : Nat) (buf : Bytes) :
    Determined (Permits fs contents) (fs.readInto inode offset buf)
      (readOutcome fs contents inode offset buf) := by
  unfold Filesystem.readInto readOutcome
  cases fs.kind inode with
  | error failure => exact determined_done _ _
  | ok kind =>
    simp only [lift_ok_bind, ok_bind]
    cases refuseIf (kind ≠ .regular) (corrupt s!"inode {inode} is not a regular file") with
    | error failure => exact determined_done _ _
    | ok _ =>
      simp only [lift_ok_bind, ok_bind]
      cases fs.chunkRange inode with
      | error failure => exact determined_done _ _
      | ok range =>
        simp only [lift_ok_bind, ok_bind]
        cases fs.chunksCovering range.1 range.2 offset with
        | error failure => exact determined_done _ _
        | ok covering =>
          simp only [lift_ok_bind, ok_bind]
          refine determined_bind (readChunks_determined offset _ trivial) ?_ ?_
          · intro value eq
            rw [eq]
            exact determined_done _ _
          · intro failure eq
            rw [eq, error_bind]

end Reference

section Cache

variable {fs : Filesystem} {contents : UInt32 → Bytes}

/-- Every ready entry is a prefix of its own block. -/
def Prefixes (fs : Filesystem) (contents : UInt32 → Bytes) (blocks : Blocks) : Prop :=
  ∀ block bytes, blocks block = some (.ready bytes) →
    block.toNat < fs.blockRecords.length ∧ bytes <+: contents block

theorem Prefixes.mono {before after : Blocks} (prefixes : Prefixes fs contents before)
    (keeps : Keeps before after) : Prefixes fs contents after :=
  fun block bytes found => prefixes block bytes (keeps.ready found)

/-- A marker instead of an entry takes nothing away from the others. -/
theorem Prefixes.update {blocks : Blocks} (prefixes : Prefixes fs contents blocks) {block : UInt32}
    {entry : Option Entry} (unready : ∀ bytes, entry ≠ some (.ready bytes)) :
    Prefixes fs contents (Function.update blocks block entry) := by
  intro other bytes found
  by_cases same : other = block
  · subst same
    exact absurd (by simpa using found) (unready bytes)
  · exact prefixes other bytes (by simpa [Function.update_of_ne same] using found)

theorem Prefixes.hit {blocks : Blocks} (prefixes : Prefixes fs contents blocks)
    {query : BlockQuery} {bytes : Bytes} (found : blocks query.block = some (.ready bytes))
    (long : query.needed ≤ bytes.length) : Permits fs contents query (.ok bytes) := by
  obtain ⟨inside, isPrefix⟩ := prefixes query.block bytes found
  exact permits_ok.mpr ⟨inside, isPrefix, Nat.le_trans (Nat.min_le_left _ _) long⟩

theorem Prefixes.admitBytes {inner after : Inner} (prefixes : Prefixes fs contents inner.blocks)
    {query : BlockQuery} {bytes : Bytes} (permitted : Permits fs contents query (.ok bytes))
    (own : after.blocks query.block = some (.ready bytes))
    (others : ∀ other, other ≠ query.block → after.blocks other = inner.blocks other ∨
      (after.blocks other = none ∧ ∃ old, inner.blocks other = some (.ready old))) :
    Prefixes fs contents after.blocks := by
  intro block found ready
  by_cases same : block = query.block
  · subst same
    rw [own] at ready
    cases ready
    obtain ⟨inside, isPrefix, _⟩ := permits_ok.mp permitted
    exact ⟨inside, isPrefix⟩
  · rcases others block same with kept | ⟨gone, _⟩
    · exact prefixes block found (kept ▸ ready)
    · rw [gone] at ready
      cases ready

/-- What a cache holds when no decode is in flight. -/
structure Serves (fs : Filesystem) (contents : UInt32 → Bytes) (cache : Inner) : Prop where
  accounted : Accounted cache
  prefixes : Prefixes fs contents cache.blocks
  idle : ∀ block, cache.blocks block ≠ some .loading

theorem serves_empty : Serves fs contents .empty where
  accounted := accounted_empty
  prefixes := by simp [Prefixes, Inner.empty]
  idle := by simp [Inner.empty]

/-- A cache that no other thread touches answers every query, and stays as it should be. -/
theorem decodeBlock_serves {libs : Libraries} (decodes : DecodesTo libs fs contents)
    (budget : Nat) (query : BlockQuery) (cache : Inner) (serves : Serves fs contents cache) :
    ∃ answer after, fs.decodeBlock libs budget query cache = some (answer, after) ∧
      Permits fs contents query answer ∧ Serves fs contents after := by
  obtain ⟨answer, after, fetched, kept, idle, _, news, source⟩ :=
    serves.accounted.fetch serves.idle (fs.decodeRecord libs query) budget fs.blockSize.toNat
      query.block query.needed
  have permitted : Permits fs contents query answer := by
    rcases source with ⟨bytes, ready, long, rfl⟩ | ⟨retryInFull, rfl⟩
    · exact serves.prefixes.hit ready long
    · exact decodeRecord_permits decodes query retryInFull
  refine ⟨answer, after, fetched, permitted, kept, fun block bytes ready => ?_, idle⟩
  rcases news block bytes ready with before | ⟨rfl, rfl⟩
  · exact serves.prefixes block bytes before
  · obtain ⟨inside, reaches⟩ := permits_ok.mp permitted
    exact ⟨inside, reaches.1⟩

/-- Alone on such a cache, `read_into` ends as over the decoded blocks. -/
theorem readInto_alone {libs : Libraries} (decodes : DecodesTo libs fs contents) (budget : Nat)
    {cache : Inner} (serves : Serves fs contents cache) (inode : UInt32) (offset : Nat)
    (buf : Bytes) :
    ∃ after, (fs.readInto inode offset buf).run (fs.decodeBlock libs budget) cache =
        some (readOutcome fs contents inode offset buf, after) ∧ Serves fs contents after :=
  run_determined (fun query cache serves => decodeBlock_serves decodes budget query cache serves)
    (readInto_determined inode offset buf) cache serves

end Cache

end Rdwarfs.Guarantees.BlockReads
