import Rdwarfs.Guarantees.ReadContract

/-!
# One content for every read of a file

Blocks of a damaged image may fail to decode, or decode only in part. As long as all that
decodes of a block is the beginning of one byte string, every read that returns shows a
window of one and the same content, however the file is cut into reads and whatever cache
is behind them. The content is taken from blocks padded with zeros, over which no read
fails; a read that returns has not seen the padding.
-/
namespace Rdwarfs.Guarantees.FileContents

open Lib.Machine Lib.Oracle Lib.Oracle.Prog Source Source.Format Source.Metadata Source.Fs
open Source.Codecs CacheAccounting BlockReads OpenedFilesystem ReadContract

/-- Whatever decodes of a block, in full or in part, is a prefix of its contents. -/
structure DecodesWithin (libs : Libraries) (fs : Filesystem) (contents : UInt32 → Bytes) :
    Prop where
  whole : ∀ block record bytes, fs.blockRecords[block.toNat]? = some record →
    fs.image.decompressSection libs record fs.blockSize.toNat = .ok bytes →
    bytes <+: contents block
  partly : ∀ block record want bytes, fs.blockRecords[block.toNat]? = some record →
    want ≤ fs.blockSize.toNat →
    fs.image.decompressSectionPrefix libs record want = .ok (some bytes) →
    bytes <+: contents block

/-- Answers that show nothing but the block asked for. -/
def Shows (contents : UInt32 → Bytes) (query : BlockQuery) (answer : Result Bytes) : Prop :=
  ∀ bytes, answer = .ok bytes → bytes <+: contents query.block

/-- A cache at rest whose entries show nothing else either. -/
structure Stocked (contents : UInt32 → Bytes) (cache : Inner) : Prop where
  accounted : Accounted cache
  idle : ∀ block, cache.blocks block ≠ some .loading
  shows : ∀ block bytes, cache.blocks block = some (.ready bytes) → bytes <+: contents block

section Cache

variable {fs : Filesystem} {libs : Libraries} {contents : UInt32 → Bytes}

theorem stocked_empty : Stocked contents .empty where
  accounted := accounted_empty
  idle := by simp [Inner.empty]
  shows := by simp [Inner.empty]

theorem decodeRecord_shows (decodes : DecodesWithin libs fs contents) (query : BlockQuery)
    (retryInFull : Bool) : Shows contents query (fs.decodeRecord libs query retryInFull) := by
  intro bytes decoded
  simp only [Filesystem.decodeRecord, bind_eq_ok, okOr_eq_ok] at decoded
  obtain ⟨record, found, decoded⟩ := decoded
  split at decoded
  · obtain ⟨front, tried, decoded⟩ := bind_eq_ok.mp decoded
    cases front with
    | some front =>
      cases decoded
      exact decodes.partly _ _ _ _ found (Nat.min_le_right _ _) tried
    | none => exact decodes.whole _ _ _ found decoded
  · rw [ok_bind] at decoded
    exact decodes.whole _ _ _ found decoded

theorem decodeBlock_shows (decodes : DecodesWithin libs fs contents) (budget : Nat)
    (query : BlockQuery) (cache : Inner) (stocked : Stocked contents cache) :
    ∃ answer after, fs.decodeBlock libs budget query cache = some (answer, after) ∧
      Shows contents query answer ∧ Stocked contents after := by
  obtain ⟨answer, after, fetched, kept, idle, _, news, source⟩ :=
    stocked.accounted.fetch stocked.idle (fs.decodeRecord libs query) budget fs.blockSize.toNat
      query.block query.needed
  have shows : Shows contents query answer := by
    rcases source with ⟨bytes, ready, _, rfl⟩ | ⟨retryInFull, rfl⟩
    · rintro _ ⟨⟩
      exact stocked.shows _ _ ready
    · exact decodeRecord_shows decodes query retryInFull
  refine ⟨answer, after, fetched, shows, kept, idle, fun block bytes ready => ?_⟩
  rcases news block bytes ready with before | ⟨rfl, same⟩
  · exact stocked.shows block bytes before
  · exact shows bytes same

end Cache

section Padding

/-- More than any chunk offset and chunk size together. -/
def spare : Nat := 2 ^ 33

def padded (contents : UInt32 → Bytes) (block : UInt32) : Bytes :=
  contents block ++ List.replicate spare 0

def blankRecord : SectionRecord where
  fileOffset := 0
  header :=
    { major := 2, minor := 5, sha512_256 := [], xxh3_64 := 0, number := 0
      sectionType := .block, compression := .none, payloadLen := 0 }

/-- A block record for every index a chunk can name. -/
def roomyRecords : List SectionRecord := List.replicate (2 ^ 32) blankRecord

def roomy (fs : Filesystem) : Filesystem :=
  { fs with
    image := { fs.image with sections := roomyRecords }
    blockRecords := roomyRecords }

variable {fs : Filesystem} {contents : UInt32 → Bytes}

theorem derived_roomy (derived : Derived fs) : Derived (roomy fs) where
  chunkEnd := derived.chunkEnd
  offsets := derived.offsets
  blockRecords := by
    simp only [roomy, roomyRecords]
    rw [List.filter_replicate, if_pos (by decide)]

theorem fits_padded (chunk : Chunk) : Fits (roomy fs) (padded contents) chunk := by
  intro _
  have offset := chunk.offset.toNat_lt
  have size := chunk.size.toNat_lt
  have block := chunk.block.toNat_lt
  constructor
  · simp only [roomy, roomyRecords, List.length_replicate]
    exact block
  · simp only [padded, List.length_append, List.length_replicate, spare]
    omega

/-- A window of what was shown is the same window of the padded block. -/
theorem windowOf_padded {block : UInt32} {bytes src : Bytes} {blockStart blockEnd : Nat}
    (shown : bytes <+: contents block)
    (copied : Filesystem.copyWindow bytes blockStart blockEnd = .ok src) :
    windowOf (roomy fs) (padded contents) block blockStart blockEnd = .ok src := by
  obtain ⟨rest, split⟩ := shown
  have whole : padded contents block = bytes ++ (rest ++ List.replicate spare 0) := by
    rw [padded, ← split, List.append_assoc]
  have record : (roomy fs).blockRecords[block.toNat]? = some blankRecord := by
    simp only [roomy, roomyRecords]
    rw [List.getElem?_replicate, if_pos block.toNat_lt]
  simp only [Filesystem.copyWindow, bind_eq_ok, refuseIf_eq_ok] at copied
  obtain ⟨_, inside, copied⟩ := copied
  have ordered : blockStart ≤ blockEnd := by
    by_contra reversed
    simp [slice, reversed] at copied
  rw [slice_of_le ordered (Nat.le_of_not_lt inside), Except.ok.injEq] at copied
  have long : blockEnd ≤ (padded contents block).length := by
    rw [whole, List.length_append]
    omega
  simp only [windowOf, record, Filesystem.copyWindow, refuseIf_of_not (Nat.not_lt.mpr long),
    ok_bind]
  rw [slice_of_le ordered long, whole, List.drop_append_of_le_length (by omega),
    List.take_append_of_le_length (by rw [List.length_drop]; omega), copied]

end Padding

section Reads

variable {fs : Filesystem} {contents : UInt32 → Bytes}

theorem reach_follows {α : Type} {held : Option (UInt32 × Bytes)} {query : BlockQuery}
    {next : Bytes → Reading α} {spec : Result α}
    (shown : ∀ block bytes, held = some (block, bytes) → bytes <+: contents block)
    (onward : ∀ bytes, bytes <+: contents query.block →
      Follows (Shows contents) (next bytes) spec) :
    Follows (Shows contents) (Filesystem.reach held query >>= next) spec := by
  rcases Filesystem.reach_cases held query next with asks | ⟨bytes, kept, -, here⟩
  · rw [asks, question_bind]
    exact follows_ask fun bytes shows => onward bytes (shows bytes rfl)
  · rw [here]
    exact onward bytes (shown _ _ kept)

theorem readChunks_follows (offset wantEnd : Nat) {indices : List Nat} {written remaining : Bytes}
    {held : Option (UInt32 × Bytes)}
    (shown : ∀ block bytes, held = some (block, bytes) → bytes <+: contents block) :
    Follows (Shows contents) (fs.readChunks offset wantEnd indices written remaining held)
      (readFrom (roomy fs) (padded contents) offset wantEnd indices written remaining) := by
  induction indices generalizing written remaining held with
  | nil => exact follows_lift _ _
  | cons i rest ih =>
    rw [Filesystem.readChunks, readFrom]
    split
    · exact follows_lift _ _
    · refine follows_bind (follows_lift _ _) fun visited _ => ?_
      cases visited with
      | stop => exact follows_lift _ _
      | skip => exact ih shown
      | zeros take => exact ih shown
      | copy block blockStart blockEnd =>
        refine reach_follows shown fun bytes isPrefix => ?_
        cases copied : Filesystem.copyWindow bytes blockStart blockEnd with
        | error failure =>
          rintro value ⟨⟩
        | ok src =>
          rw [lift_ok_bind]
          simp only [windowOf_padded isPrefix copied, ok_bind]
          exact ih fun _ _ same => by
            cases same
            exact isPrefix

theorem readInto_follows (inode : UInt32) (offset : Nat) (buf : Bytes) :
    Follows (Shows contents) (fs.readInto inode offset buf)
      (readOutcome (roomy fs) (padded contents) inode offset buf) := by
  unfold Filesystem.readInto readOutcome
  refine follows_bind (follows_lift _ _) fun kind _ => ?_
  refine follows_bind (follows_lift _ _) fun _ _ => ?_
  refine follows_bind (follows_lift _ _) fun range _ => ?_
  refine follows_bind (follows_lift _ _) fun covering _ => ?_
  refine follows_bind (readChunks_follows _ _ (by simp)) fun done _ => ?_
  exact follows_lift _ _

/-- The bytes of a file, as every read of it shows them. -/
def fileContent (fs : Filesystem) (contents : UInt32 → Bytes) (inode : UInt32) : Bytes :=
  match fs.chunkRange inode with
  | .ok (start, stop) =>
    contentOf (roomy fs) (padded contents) ((fs.chunks.drop start).take (stop - start))
  | .error _ => []

theorem fileSize_content (derived : Derived fs) {inode : UInt32}
    (regular : fs.kind inode = .ok .regular) {range : Nat × Nat}
    (accepted : fs.chunkRange inode = .ok range) :
    fs.fileSize inode = .ok (fileContent fs contents inode).length := by
  obtain ⟨start, stop⟩ := range
  obtain ⟨ends, runs, same, count, _, _⟩ := runs_of_chunkRange (derived_roomy derived) accepted
  have size := @fileSize_eq (roomy fs) (padded contents) _ _ _ _ regular accepted runs
    same count fun chunk _ => fits_padded chunk
  simp only [fileContent, accepted]
  exact size

theorem fileContent_lt (derived : Derived fs) (inode : UInt32) :
    (fileContent fs contents inode).length < wordLimit := by
  unfold fileContent
  split
  · rename_i start stop accepted
    obtain ⟨ends, runs, _, _, _, _⟩ := runs_of_chunkRange (derived_roomy derived) accepted
    have bound := (@contentOf_bound _ (padded contents) _ _ _ runs (by decide)
      fun chunk _ => fits_padded chunk).1
    rw [Nat.zero_add] at bound
    exact bound
  · decide

theorem size_of_regular (contents : UInt32 → Bytes) (derived : Derived fs) {inode : UInt32}
    (regular : fs.kind inode = .ok .regular) {size : Nat} (known : fs.fileSize inode = .ok size) :
    size = (fileContent fs contents inode).length := by
  have parts := known
  simp only [Filesystem.fileSize, regular, ok_bind, ne_eq, not_true_eq_false, if_false,
    bind_eq_ok] at parts
  obtain ⟨range, accepted, _⟩ := parts
  rw [@fileSize_content fs contents derived inode regular _ accepted, Except.ok.injEq] at known
  exact known.symm

/-- A file that has a size has that of its content, or is not regular and has none. -/
theorem fileSize_cases (derived : Derived fs) {inode : UInt32} {size : Nat}
    (known : fs.fileSize inode = .ok size) :
    size = (fileContent fs contents inode).length ∨ size = 0 := by
  obtain ⟨kind, found, parts⟩ := bind_eq_ok.mp known
  by_cases regular : kind = .regular
  · rw [regular] at found
    exact Or.inl (size_of_regular contents derived found known)
  · rw [if_pos regular] at parts
    cases parts
    exact Or.inr rfl

/-- A read that returns has filled its buffer from the content, from its offset on. -/
theorem readInto_content (derived : Derived fs) {inode : UInt32} {offset n : Nat} {buf out : Bytes}
    (word : offset < wordLimit)
    (yields : Yields (Shows contents) (fs.readInto inode offset buf) (.ok (n, out))) :
    fs.fileSize inode = .ok (fileContent fs contents inode).length ∧
      n = (((fileContent fs contents inode).drop offset).take buf.length).length ∧
      out = ((fileContent fs contents inode).drop offset).take buf.length ++ buf.drop n := by
  have outcome := readInto_follows inode offset buf _ yields
  have parts := outcome
  simp only [readOutcome, bind_eq_ok, refuseIf_eq_ok, not_not] at parts
  obtain ⟨kind, known, _, rfl, ⟨start, stop⟩, accepted, _⟩ := parts
  have size := @fileSize_content fs contents derived inode known _ accepted
  rw [readOutcome_eq (derived_roomy derived) known accepted (fun chunk _ => fits_padded chunk)
    word buf] at outcome
  cases outcome
  refine ⟨size, ?_⟩
  simp only [fileContent, show fs.chunkRange inode = .ok (start, stop) from accepted]
  exact ⟨rfl, rfl⟩

theorem readAt_content (derived : Derived fs) {inode : UInt32} {offset size : Nat} {bytes : Bytes}
    (word : offset < wordLimit)
    (yields : Yields (Shows contents) (fs.readAt inode offset size) (.ok bytes)) :
    fs.fileSize inode = .ok (fileContent fs contents inode).length ∧
      bytes = ((fileContent fs contents inode).drop offset).take size := by
  unfold Filesystem.readAt at yields
  cases known : fs.fileSize inode with
  | error failure =>
    rw [known, lift_error_bind] at yields
    cases yields
  | ok total =>
    rw [known, lift_ok_bind] at yields
    dsimp only at yields
    cases reserved : allocate (min (total - offset) size) with
    | error failure =>
      rw [reserved, lift_error_bind] at yields
      cases yields
    | ok _ =>
      rw [reserved, lift_ok_bind] at yields
      rcases yields_bind yields with ⟨⟨n, out⟩, read, done⟩ | ⟨_, _, absurd_⟩
      · obtain ⟨length, count, filled⟩ := readInto_content derived word read
        rw [known, Except.ok.injEq] at length
        cases done
        refine ⟨congrArg _ length, ?_⟩
        rw [List.length_replicate] at count filled
        rw [filled, List.take_left' count.symm, length, List.take_eq_take_iff, List.length_drop]
        omega
      · cases absurd_

variable {libs : Libraries}

/-- `read_at` through a cache that no other thread uses. -/
theorem readAt_run (derived : Derived fs) (decodes : DecodesWithin libs fs contents) (budget : Nat)
    {cache : Inner} (stocked : Stocked contents cache) (inode : UInt32) {offset : Nat}
    (word : offset < wordLimit) (size : Nat) :
    ∃ result after, (fs.readAt inode offset size).run (fs.decodeBlock libs budget) cache =
        some (result, after) ∧ Stocked contents after ∧
      ∀ bytes, result = .ok bytes → fs.fileSize inode = .ok (fileContent fs contents inode).length ∧
        bytes = ((fileContent fs contents inode).drop offset).take size := by
  obtain ⟨result, after, ran, yields, kept⟩ :=
    run_yields (decodeBlock_shows decodes budget) (fs.readAt inode offset size) cache stocked
  exact ⟨result, after, ran, kept, fun bytes same => readAt_content derived word (same ▸ yields)⟩

theorem readFile_content (derived : Derived fs) (decodes : DecodesWithin libs fs contents)
    {inode : UInt32} {bytes : Bytes} (read : fs.readFile libs inode = some (.ok bytes)) :
    fs.fileSize inode = .ok (fileContent fs contents inode).length ∧
      bytes = fileContent fs contents inode := by
  unfold Filesystem.readFile at read
  cases known : fs.fileSize inode with
  | error failure =>
    rw [known] at read
    cases read
  | ok size =>
    obtain ⟨result, after, ran, _, shown⟩ := readAt_run derived decodes
      (2 * fs.blockSize.toNat) stocked_empty inode (by decide : 0 < wordLimit) size
    simp only [known, ran, Option.map_some, Option.some.injEq] at read
    obtain ⟨length, same⟩ := shown bytes read
    rw [known] at length
    refine ⟨length, ?_⟩
    rw [Except.ok.injEq] at length
    rw [same, length, List.drop_zero, List.take_length]

end Reads

end Rdwarfs.Guarantees.FileContents
