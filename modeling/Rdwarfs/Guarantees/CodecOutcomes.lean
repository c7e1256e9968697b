import Rdwarfs.Source.Compression.Prefix

/-!
# How a codec ends

In every build an arm of `decompress` returns or fails with an error of its own, never with one of
the checks around it. It panics only where it reserves more than any vector can hold: not as long
as the size asked for is below `sliceLimit`, as the size of a block is.
-/
namespace Rdwarfs.Guarantees.CodecOutcomes

open Lib.Machine Lib.Streams Source Source.Format Source.Codecs

/-- The errors that codecs have. -/
def Own : Error → Prop
  | .decode _ _ | .codecDisabled _ | .codecUnimplemented _ | .unknownCompression _ => True
  | _ => False

/-- Panics only unless `calm`, and fails only with a codec's own errors. -/
structure Ends {α : Type} (calm : Prop) (outcome : Result α) : Prop where
  returns : calm → outcome ≠ panicked
  own : ∀ reason, outcome = fail reason → Own reason

section Rules

variable {α β : Type} {calm : Prop}

theorem ends_ok (value : α) : Ends calm (.ok value : Result α) where
  returns := by simp
  own := by simp

theorem ends_fail {reason : Error} (own : Own reason) : Ends calm (fail reason : Result α) where
  returns := by simp
  own := by
    intro other same
    cases same
    exact own

theorem Ends.bind {step : Result α} {next : α → Result β} (first : Ends calm step)
    (onward : ∀ value, Ends calm (next value)) : Ends calm (step >>= next) := by
  cases ended : step with
  | ok value => exact onward value
  | error failure =>
    constructor
    · intro holds stuck
      cases failure with
      | err reason => cases stuck
      | panic => exact first.returns holds ended
    · intro reason failed
      cases failed
      exact first.own reason ended

theorem ends_mapDecode (codec : String) (outcome : Except IoError α) :
    Ends calm (mapDecode codec outcome) := by
  cases outcome with
  | ok value => exact ends_ok value
  | error error => exact ends_fail trivial

theorem ends_allocate {size : Nat} (small : calm → size < sliceLimit) :
    Ends calm (allocate size) where
  returns holds stuck := by
    have large := allocate_eq_panicked.mp stuck
    have fits := small holds
    omega
  own reason failed := by
    unfold allocate at failed
    split at failed <;> cases failed

end Rules

section Arms

variable {calm : Prop} (decoders : Decoders) (features : Features) (src : Bytes)

theorem readStream_ends (want cap : Nat) (reader : Reader) (out : Bytes) :
    Ends calm (readStream want cap reader out) := by
  induction reader generalizing out with
  | ended =>
    rw [readStream]
    split <;> exact ends_ok _
  | call answer rest ih =>
    rw [readStream]
    split
    · dsimp only
      split
      · exact ends_fail trivial
      · split
        · exact ends_ok _
        · split
          · exact ends_fail trivial
          · exact ih _ _
    · exact ends_ok _

theorem zstdFill_ends (needed : Nat) (reader : Reader) (out : Bytes) :
    Ends calm (zstdFill needed reader out) := by
  induction reader generalizing out with
  | ended =>
    rw [zstdFill]
    split <;> exact ends_ok _
  | call answer rest ih =>
    rw [zstdFill]
    split
    · dsimp only
      split
      · exact ends_fail trivial
      · split
        · exact ends_ok _
        · exact ih _ _
    · exact ends_ok _

theorem zstd_ends (cap : Nat) : Ends (cap < sliceLimit) (zstdDecompress decoders src cap) := by
  unfold zstdDecompress
  split
  · split
    · exact ends_fail trivial
    · apply (ends_allocate (by omega)).bind
      exact fun _ => ends_mapDecode _ _
  · apply (ends_mapDecode _ _).bind
    intro decoder
    exact (ends_mapDecode _ _).bind fun _ => ends_ok _

theorem lzma_ends (cap : Nat) : Ends calm (lzmaDecompress decoders src cap) := by
  unfold lzmaDecompress
  dsimp only
  split
  · exact ends_fail trivial
  · split
    · exact ends_fail trivial
    · exact ends_ok _

theorem lz4_ends (cap : Nat) : Ends calm (lz4Decompress decoders src cap) := by
  unfold lz4Decompress
  dsimp only
  split
  · exact ends_fail trivial
  · split
    · exact ends_fail trivial
    · split
      · exact ends_ok _
      · exact ends_fail trivial

theorem readLeb128From_ends (i : Nat) (result : UInt64) :
    Ends calm (readLeb128From i result src) where
  returns _ := readLeb128From_ne_panicked src i result
  own := by
    induction src generalizing i result with
    | nil =>
      intro reason failed
      cases failed
      trivial
    | cons byte rest ih =>
      intro reason failed
      unfold readLeb128From at failed
      dsimp only at failed
      split at failed
      · split at failed
        · cases failed
        · exact ih _ _ reason failed
      · cases failed
        trivial

theorem brotli_ends (cap : Nat) : Ends (cap < sliceLimit) (brotliDecompress decoders src cap) := by
  unfold brotliDecompress
  apply (readLeb128From_ends _ _ _).bind
  intro prefixed
  dsimp only
  split
  · exact ends_fail trivial
  · apply Ends.bind
    · unfold CappedWriter.withExpectedSize
      apply (ends_allocate (by omega)).bind
      exact fun _ => ends_ok _
    · intro sink
      exact (ends_mapDecode _ _).bind fun _ => ends_ok _

/-- Every codec of every build. -/
theorem decode_ends (codec : Compression) (cap : Nat) :
    Ends (cap < sliceLimit) (decoders.decode features codec src cap) := by
  cases codec with
  | none =>
    simp only [Decoders.decode, noneDecompress]
    split
    · exact ends_fail trivial
    · exact ends_ok _
  | zstd =>
    simp only [Decoders.decode]
    split
    · exact zstd_ends decoders src cap
    · exact ends_fail trivial
  | lzma =>
    simp only [Decoders.decode]
    split
    · exact readStream_ends cap cap _ _
    · split
      · exact lzma_ends decoders src cap
      · exact ends_fail trivial
  | lz4 | lz4Hc =>
    simp only [Decoders.decode]
    split
    · exact lz4_ends decoders src cap
    · exact ends_fail trivial
  | brotli =>
    simp only [Decoders.decode]
    split
    · exact brotli_ends decoders src cap
    · exact ends_fail trivial
  | flac | ricepp | unknown => exact ends_fail trivial

theorem lzmaPrefix_ends (needed : Nat) :
    Ends (needed < sliceLimit) (lzmaDecompressPrefix decoders src needed) := by
  unfold lzmaDecompressPrefix PrefixWriter.new
  apply ((ends_allocate id).bind fun _ => ends_ok _).bind
  intro sink
  dsimp only
  split
  · split
    · exact ends_ok _
    · exact ends_fail trivial
  · split
    · exact ends_ok _
    · split
      · exact ends_ok _
      · exact ends_fail trivial
    · exact ends_fail trivial

theorem decompressPrefix_ends (codec : Compression) (needed : Nat) :
    Ends (needed < sliceLimit) (decoders.decompressPrefix features codec src needed) := by
  unfold Decoders.decompressPrefix
  split
  · split
    · unfold zstdDecompressPrefix
      apply Ends.bind
      · apply (ends_mapDecode _ _).bind
        intro reader
        exact (ends_allocate id).bind fun _ => zstdFill_ends _ _ _
      · exact fun _ => ends_ok _
    · exact ends_ok _
  · split
    · exact (readStream_ends _ _ _ _).bind fun _ => ends_ok _
    · split
      · exact (lzmaPrefix_ends decoders src needed).bind fun _ => ends_ok _
      · exact ends_ok _
  · exact ends_ok _

end Arms

section Wider

/-- Two sinks that hold the same under caps of their own. -/
def SinksAgree (cap cap' : Nat) (narrow wide : CappedWriter) : Prop :=
  wide.buf = narrow.buf ∧ narrow.cap = cap ∧ wide.cap = cap'

theorem sinksAgree_new (cap cap' : Nat) : SinksAgree cap cap' (.new cap) (.new cap') :=
  ⟨rfl, rfl, rfl⟩

/-- A codec that is built in answers as its arm does; one that is not refuses everything. -/
theorem enabled_wider {enabled : Bool} {narrow wide : Result Bytes} {reason : Error} {out : Bytes}
    (wider : narrow = .ok out → wide = .ok out)
    (decoded : (if enabled = true then narrow else fail reason) = .ok out) :
    (if enabled = true then wide else fail reason) = .ok out := by
  cases enabled with
  | false => cases decoded
  | true => exact wider decoded

variable {cap cap' : Nat} (le : cap ≤ cap')

include le

/-- What a capped sink takes, one with a wider cap takes too. -/
theorem writeAll_follows :
    Follows CappedWriter.writeAll CappedWriter.writeAll (SinksAgree cap cap') := by
  intro narrow wide piece after related wrote
  obtain ⟨buf, cap_, wide_⟩ := related
  unfold CappedWriter.writeAll at wrote ⊢
  by_cases empty : piece = []
  · rw [if_pos empty] at wrote ⊢
    cases wrote
    exact ⟨wide, rfl, buf, cap_, wide_⟩
  · rw [if_neg empty] at wrote ⊢
    unfold CappedWriter.write at wrote ⊢
    split at wrote
    · cases wrote
    · rename_i fits
      cases wrote
      rw [buf, if_neg (by omega)]
      exact ⟨_, rfl, rfl, cap_, wide_⟩

theorem copy_wider {codec : String} {reader : Reader} {out : Bytes}
    (copied : (mapDecode codec (copy CappedWriter.writeAll copyBufLen reader (.new cap)) >>=
      fun sink => (.ok sink.intoInner : Result Bytes)) = .ok out) :
    (mapDecode codec (copy CappedWriter.writeAll copyBufLen reader (.new cap')) >>=
      fun sink => (.ok sink.intoInner : Result Bytes)) = .ok out := by
  cases ended : copy CappedWriter.writeAll copyBufLen reader (.new cap) with
  | error error =>
    rw [ended] at copied
    cases copied
  | ok sink =>
    rw [ended] at copied
    cases copied
    obtain ⟨wide, ended', same, -⟩ :=
      copy_follows (writeAll_follows le) (sinksAgree_new cap cap') ended
    rw [ended', CappedWriter.intoInner, ← same]
    rfl

variable {decoders : Decoders} {src out : Bytes}

theorem zstd_wider (decoded : zstdDecompress decoders src cap = .ok out) :
    zstdDecompress decoders src cap' = .ok out := by
  unfold zstdDecompress at decoded ⊢
  cases declared : decoders.zstdFrameContentSize src with
  | none =>
    simp only [declared, bind_eq_ok] at decoded ⊢
    obtain ⟨reader, read, decoded⟩ := decoded
    exact ⟨reader, read, bind_eq_ok.mp (copy_wider le (bind_eq_ok.mpr decoded))⟩
  | some size =>
    simp only [declared] at decoded ⊢
    split at decoded
    · cases decoded
    · rwa [if_neg (by omega)]

theorem lzma_wider (decoded : lzmaDecompress decoders src cap = .ok out) :
    lzmaDecompress decoders src cap' = .ok out := by
  unfold lzmaDecompress at decoded ⊢
  dsimp only at decoded ⊢
  cases fed : feed CappedWriter.writeAll (decoders.xzDecompress src).pieces (.new cap) with
  | mk sink failed =>
    rw [fed] at decoded
    cases failed with
    | some error => cases decoded
    | none =>
      obtain ⟨wide, fed', same, -⟩ :=
        feed_follows (writeAll_follows le) (sinksAgree_new cap cap') fed
      rw [fed']
      cases failure : (decoders.xzDecompress src).failure with
      | some error =>
        simp only [failure] at decoded
        cases decoded
      | none =>
        simp only [failure] at decoded ⊢
        cases decoded
        rw [CappedWriter.intoInner, same]
        rfl

theorem lz4_wider (decoded : lz4Decompress decoders src cap = .ok out) :
    lz4Decompress decoders src cap' = .ok out := by
  unfold lz4Decompress at decoded ⊢
  dsimp only at decoded ⊢
  split at decoded
  · cases decoded
  · rename_i long
    rw [if_neg long]
    split at decoded
    · cases decoded
    · rwa [if_neg (by omega)]

theorem brotli_wider (decoded : brotliDecompress decoders src cap = .ok out) :
    brotliDecompress decoders src cap' = .ok out := by
  unfold brotliDecompress at decoded ⊢
  obtain ⟨prefixed, read, decoded⟩ := bind_eq_ok.mp decoded
  rw [read, ok_bind]
  dsimp only at decoded ⊢
  split at decoded
  · cases decoded
  · rename_i fits
    rw [if_neg (by omega)]
    unfold CappedWriter.withExpectedSize at decoded ⊢
    rw [Nat.min_eq_left (by omega)] at decoded ⊢
    cases reserved : allocate prefixed.1 with
    | error failure =>
      rw [reserved] at decoded
      cases decoded
    | ok _ =>
      rw [reserved] at decoded
      exact copy_wider le decoded

/-- What decodes under a cap decodes the same under a wider one, but by liblzma, whose loop takes
its cap for the end. -/
theorem decode_wider {features : Features} {codec : Compression}
    (stops : features.lzmaNative = false ∨ codec ≠ .lzma)
    (decoded : decoders.decode features codec src cap = .ok out) :
    decoders.decode features codec src cap' = .ok out := by
  cases codec with
  | none =>
    simp only [Decoders.decode, noneDecompress] at decoded ⊢
    split at decoded
    · cases decoded
    · rwa [if_neg (by omega)]
  | zstd => exact enabled_wider (zstd_wider le) decoded
  | lzma =>
    have off : features.lzmaNative = false := stops.resolve_right (fun other => other rfl)
    simp only [Decoders.decode, off, Bool.false_eq_true, if_false] at decoded ⊢
    exact enabled_wider (lzma_wider le) decoded
  | lz4 | lz4Hc => exact enabled_wider (lz4_wider le) decoded
  | brotli => exact enabled_wider (brotli_wider le) decoded
  | flac | ricepp | unknown => cases decoded

end Wider

/-- No decode of a size up to `limit` panics. -/
structure CodecsReturn (libs : Libraries) (limit : Nat) : Prop where
  whole : ∀ codec src cap, cap ≤ limit → libs.decode codec src cap ≠ panicked
  part : ∀ codec src needed, needed ≤ limit → libs.decodePrefix codec src needed ≠ panicked

theorem codecsReturn_libraries (decoders : Decoders) (features : Features) (base : Libraries)
    {limit : Nat} (small : limit < sliceLimit) :
    CodecsReturn (decoders.libraries features base) limit where
  whole codec src cap within := (decode_ends decoders features src codec cap).returns (by omega)
  part codec src needed within :=
    (decompressPrefix_ends decoders features src codec needed).returns (by omega)

/-- A size that a 32-bit word holds is small enough. -/
theorem codecsReturn_block (decoders : Decoders) (features : Features) (base : Libraries)
    (blockSize : UInt32) : CodecsReturn (decoders.libraries features base) blockSize.toNat := by
  apply codecsReturn_libraries
  have word := blockSize.toNat_lt
  rw [sliceLimit_eq]
  omega

section Loads

theorem decompress_ne_panicked {libs : Libraries} {codec : Compression} {src : Bytes} {cap : Nat}
    (calm : libs.decode codec src cap ≠ panicked) : decompress libs codec src cap ≠ panicked := by
  cases codec with
  | none =>
    change noneDecompress src cap ≠ panicked
    unfold noneDecompress
    split <;> simp
  | flac | ricepp | unknown => simp [Codecs.decompress]
  | lzma | zstd | lz4 | lz4Hc | brotli => exact calm

variable {libs : Libraries} {limit : Nat} (codecs : CodecsReturn libs limit)

include codecs

theorem CodecsReturn.decompress (codec : Compression) (src : Bytes) {cap : Nat}
    (within : cap ≤ limit) : decompress libs codec src cap ≠ panicked :=
  decompress_ne_panicked (codecs.whole codec src cap within)

theorem CodecsReturn.decompressPrefix (codec : Compression) (src : Bytes) {needed : Nat}
    (within : needed ≤ limit) : decompressPrefix libs codec src needed ≠ panicked := by
  cases codec with
  | lzma | zstd => exact codecs.part _ _ _ within
  | _ => simp [Codecs.decompressPrefix]

end Loads

/-- No codec reports what only the check of a hash does. -/
def CodecErrors (libs : Libraries) : Prop := ∀ codec src cap number kind,
  libs.decode codec src cap ≠ fail (.integrityMismatch number kind)

theorem codecErrors_libraries (decoders : Decoders) (features : Features) (base : Libraries) :
    CodecErrors (decoders.libraries features base) :=
  fun codec src cap _ _ failed => (decode_ends decoders features src codec cap).own _ failed

end Rdwarfs.Guarantees.CodecOutcomes
