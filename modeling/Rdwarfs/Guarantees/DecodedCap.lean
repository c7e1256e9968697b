import Rdwarfs.Source.Compression.Prefix

/-!
# The cap on decoded sizes

Each codec keeps to its cap in its own way: a declared size, a sink that refuses, a loop
that counts. All but one either return the whole decoded stream or fail. The loop over
liblzma stops at its cap without having seen the end, so that it returns the front of a
longer stream, which `lzma_rs` refuses. A declared size that no vector can have is reserved
before anything is decoded, and panics.
-/
namespace Rdwarfs.Guarantees.DecodedCap

open Lib.Machine Lib.Streams Source Source.Format Source.Codecs

/-- The whole stream that each package makes of one payload, its framing taken off, where it comes
to the end of it. -/
structure Decodings where
  zstd : Option Bytes
  xzRs : Option Bytes
  xzNative : Option Bytes
  lz4 : Option Bytes
  brotli : Option Bytes

/-- What the packages document of the calls that are made: a one-shot call fills a buffer of the
capacity it is given or fails, and a reader hands out the stream in pieces or fails. -/
structure Documented (decoders : Decoders) (made : Decodings) (src : Bytes) : Prop where
  zstd_bulk : ∀ size bytes, decoders.zstdFrameContentSize src = some size →
    decoders.zstdBulk src size = .ok bytes → made.zstd = some bytes ∧ bytes.length ≤ size
  zstd_decoder : ∀ reader, decoders.zstdFrameContentSize src = none →
    decoders.zstdDecoder src = .ok reader → Makes true reader made.zstd
  xz_decompress : made.xzRs = if (decoders.xzDecompress src).failure = none then
    some (decoders.xzDecompress src).pieces.flatten else none
  xz_decoder : Makes false (decoders.xzDecoder src) made.xzNative
  lz4_block : ∀ bytes, decoders.lz4Block (src.drop 4) (leNat (src.take 4)) = .ok bytes →
    made.lz4 = some bytes ∧ bytes.length ≤ leNat (src.take 4)
  brotli_decompressor : ∀ declared consumed, readLeb128U64 src = .ok (declared, consumed) →
    Makes true (decoders.brotliDecompressor (src.drop consumed)) made.brotli

/-- The decoded stream of a payload, by the codec and the build. -/
def Decodings.of (made : Decodings) (features : Features) (codec : Compression) (src : Bytes) :
    Option Bytes :=
  match codec with
  | .none => some src
  | .zstd => made.zstd
  | .lzma => if features.lzmaNative then made.xzNative else made.xzRs
  | .lz4 | .lz4Hc => made.lz4
  | .brotli => made.brotli
  | .flac | .ricepp | .unknown _ => none

/-- Whole and within the cap, or refused. -/
def Capped (outcome : Result Bytes) (made : Option Bytes) (cap : Nat) : Prop :=
  (∀ stream, made = some stream → cap < stream.length → ∃ reason, outcome = fail reason) ∧
    ∀ bytes, outcome = .ok bytes → made = some bytes ∧ bytes.length ≤ cap

/-- Read in rooms of at most `chunkLen`, the stream ends by the cap, or breaks before it. -/
def Within (reader : Reader) (made : Option Bytes) (cap : Nat) : Prop :=
  match made with
  | some stream => stream.length ≤ cap
  | none => ¬ Fills chunkLen reader cap

/-- The size a payload declares to a codec that reserves it ahead. -/
def declaredSize (decoders : Decoders) (features : Features) (codec : Compression) (src : Bytes) :
    Option Nat :=
  match codec with
  | .zstd => if features.zstd then decoders.zstdFrameContentSize src else none
  | .brotli =>
    if features.brotli then
      match readLeb128U64 src with
      | .ok (declared, _) => some declared
      | .error _ => none
    else none
  | _ => none

/-- The declared size passes for the cap and is more than any vector holds. -/
def Overflows (declared : Option Nat) (cap : Nat) : Prop :=
  ∃ size, declared = some size ∧ sliceLimit ≤ size ∧ size ≤ cap

/-- Stream lengths are counted in words; below the largest cap that needs no assumption. -/
def Counted (made : Option Bytes) (cap : Nat) : Prop :=
  cap < wordLimit - 1 ∨ ∀ stream, made = some stream → stream.length < wordLimit

theorem capped_of_ok {outcome : Result Bytes} {made : Option Bytes} {cap : Nat}
    (calm : outcome ≠ panicked)
    (returned : ∀ bytes, outcome = .ok bytes → made = some bytes ∧ bytes.length ≤ cap) :
    Capped outcome made cap := by
  apply And.intro _ returned
  intro stream complete longer
  cases result : outcome with
  | ok bytes =>
    obtain ⟨same, short⟩ := returned bytes result
    rw [complete] at same
    cases same
    omega
  | error failure =>
    cases failure with
    | err reason => exact ⟨reason, rfl⟩
    | panic => exact absurd result calm

theorem capped_fail (reason : Error) (made : Option Bytes) (cap : Nat) :
    Capped (fail reason) made cap :=
  capped_of_ok (by simp) fun _ returned => nomatch returned

theorem capped_panicked {made : Option Bytes} {cap : Nat} :
    Capped panicked made cap ↔ ∀ stream, made = some stream → stream.length ≤ cap := by
  constructor
  · intro capped stream complete
    apply Nat.le_of_not_lt
    intro longer
    obtain ⟨reason, absurd_⟩ := capped.1 stream complete longer
    cases absurd_
  · intro short
    constructor
    · intro stream complete longer
      exact absurd (short stream complete) (Nat.not_le_of_lt longer)
    · intro bytes returned
      cases returned

/-- Where nothing overflows, being capped is all there is to show. -/
theorem capped_unless {declared : Option Nat} {outcome : Result Bytes} {made : Option Bytes}
    {cap : Nat} (capped : Capped outcome made cap) (calm : ¬ Overflows declared cap) :
    Capped outcome made cap ↔
      (Overflows declared cap → ∀ stream, made = some stream → stream.length ≤ cap) :=
  iff_of_true capped fun overflows => absurd overflows calm

theorem not_overflows_none (cap : Nat) : ¬ Overflows none cap := by
  simp [Overflows]

theorem mapDecode_eq_ok {α : Type} {codec : String} {outcome : Except IoError α} {value : α} :
    mapDecode codec outcome = .ok value ↔ outcome = .ok value := by
  cases outcome <;> simp [mapDecode]

theorem mapDecode_ne_panicked {α : Type} (codec : String) (outcome : Except IoError α) :
    mapDecode codec outcome ≠ panicked := by
  cases outcome <;> simp [mapDecode]

section Sink

/-- What a capped sink may still be given, and what it then holds. -/
def Takes (writer : CappedWriter) (bytes : Bytes) (after : CappedWriter) : Prop :=
  after = { writer with buf := writer.buf ++ bytes } ∧
    (bytes = [] ∨ saturatingAddWord writer.buf.length bytes.length ≤ writer.cap)

theorem writeAll_eq_done {writer mid : CappedWriter} {data : Bytes} :
    writer.writeAll data = (mid, none) ↔ Takes writer data mid := by
  unfold CappedWriter.writeAll CappedWriter.write Takes
  by_cases empty : data = []
  · simp only [empty, if_true, Prod.mk.injEq, and_true, List.append_nil, true_or]
    exact eq_comm
  · rw [if_neg empty]
    by_cases beyond : saturatingAddWord writer.buf.length data.length > writer.cap
    · simp [empty, beyond]
    · rw [if_neg beyond, Prod.mk.injEq]
      constructor
      · intro wrote
        exact ⟨wrote.1.symm, Or.inr (Nat.le_of_not_lt beyond)⟩
      · intro takes
        exact ⟨takes.1.symm, rfl⟩

theorem writeAll_absorbs : Absorbs CappedWriter.writeAll Takes where
  nothing writer after := by simp [Takes]
  split writer piece later after := by
    simp only [writeAll_eq_done]
    simp only [Takes, saturatingAddWord_eq, List.append_eq_nil_iff, List.length_append]
    constructor
    · intro whole
      obtain ⟨rfl, fits⟩ := whole
      have first : piece = [] ∨
          min (writer.buf.length + piece.length) (wordLimit - 1) ≤ writer.cap := by
        rcases fits with ⟨empty, -⟩ | fits
        · exact Or.inl empty
        · exact Or.inr (by omega)
      have second : later = [] ∨
          min ((writer.buf ++ piece).length + later.length) (wordLimit - 1) ≤ writer.cap := by
        rcases fits with ⟨-, empty⟩ | fits
        · exact Or.inl empty
        · exact Or.inr (by simp only [List.length_append]; omega)
      exact ⟨_, ⟨rfl, first⟩, by simp, second⟩
    · intro parts
      obtain ⟨_, ⟨rfl, first⟩, rfl, second⟩ := parts
      apply And.intro (by simp)
      rcases second with rfl | second
      · simpa using first
      · simp only [List.length_append] at second
        exact Or.inr (by omega)

variable {stream : Bytes} {cap : Nat}

/-- From an empty sink, that is everything or a refusal. -/
theorem takes_new (counted : Counted (some stream) cap) {after : CappedWriter} :
    Takes (.new cap) stream after ↔
      after = { buf := stream, cap } ∧ stream.length ≤ cap := by
  have small : cap < wordLimit - 1 ∨ stream.length < wordLimit :=
    counted.imp_right fun short => short stream rfl
  rw [wordLimit_eq] at small
  simp only [Takes, CappedWriter.new, List.nil_append, List.length_nil, saturatingAddWord_eq,
    wordLimit_eq, Nat.zero_add]
  apply and_congr_right
  intro same
  constructor
  · intro takes
    cases takes with
    | inl empty => simp [empty]
    | inr fits => omega
  · intro fits
    exact Or.inr (by omega)

theorem copy_capped {made : Option Bytes} (counted : Counted made cap) {reader : Reader}
    (makes : Makes true reader made) {sink : CappedWriter}
    (copied : copy CappedWriter.writeAll copyBufLen reader (.new cap) = .ok sink) :
    made = some sink.intoInner ∧ sink.intoInner.length ≤ cap := by
  cases made with
  | none => exact absurd copied (copy_of_breaks _ (by decide) makes _ _)
  | some stream =>
    rw [copy_eq_ok writeAll_absorbs (by decide) makes, takes_new counted] at copied
    obtain ⟨rfl, short⟩ := copied
    exact ⟨rfl, short⟩

end Sink

section Pull

variable {want cap : Nat}

/-- The loop over liblzma hands out the front of a whole stream. -/
theorem readStream_whole (within : want ≤ cap) {reader : Reader} {left : Bytes}
    (delivers : Delivers false reader left) (out : Bytes) (room : out.length ≤ want) :
    readStream want cap reader out = .ok (out ++ left.take (want - out.length)) := by
  induction reader generalizing left out with
  | ended =>
    rw [Delivers] at delivers
    subst delivers
    rw [readStream]
    simp
  | call answer rest ih =>
    rw [readStream]
    by_cases more : out.length < want
    · have spacious : 0 < min (want - out.length) chunkLen := by
        simp only [chunkLen]
        omega
      have read := delivers _ spacious
      cases answered : answer (min (want - out.length) chunkLen) with
      | error error => simp [answered] at read
      | ok piece =>
        simp only [answered] at read
        obtain ⟨some_, short, later, rfl, onward⟩ := read
        have bound : (out ++ piece).length ≤ want := by
          rw [List.length_append]
          omega
        have front : (piece ++ later).take (want - out.length) =
            piece ++ later.take (want - (out ++ piece).length) := by
          rw [List.take_append, List.take_of_length_le (by omega), List.length_append,
            Nat.sub_add_eq]
        simp only [if_pos more, answered, if_neg some_]
        rw [if_neg (by omega), ih _ onward _ bound, front, List.append_assoc]
    · have full : want - out.length = 0 := by omega
      rw [if_neg more, full]
      simp

/-- It meets the error of a broken stream only where that comes before `cap` bytes are out. -/
theorem readStream_broken {reader : Reader} (breaks : Breaks false reader) (out : Bytes)
    (room : out.length ≤ cap) :
    (Fills chunkLen reader (cap - out.length) ∧ ∃ bytes, readStream cap cap reader out = .ok bytes) ∨
      (¬ Fills chunkLen reader (cap - out.length) ∧
        ∃ reason, readStream cap cap reader out = fail reason) := by
  induction reader generalizing out with
  | ended => exact breaks.elim
  | call answer rest ih =>
    rw [readStream, Fills]
    by_cases more : out.length < cap
    · have spacious : 0 < min (cap - out.length) chunkLen := by
        simp only [chunkLen]
        omega
      have wanted : 0 < cap - out.length := by omega
      have read := breaks _ spacious
      cases answered : answer (min (cap - out.length) chunkLen) with
      | error error =>
        simp only [if_pos more, answered]
        exact Or.inr ⟨fun fills => fills wanted, _, rfl⟩
      | ok piece =>
        simp only [answered] at read
        obtain ⟨some_, short, onward⟩ := read
        have bound : (out ++ piece).length ≤ cap := by
          rw [List.length_append]
          omega
        have later := ih _ onward (out ++ piece) bound
        simp only [if_pos more, answered, if_neg some_, wanted, true_implies]
        rw [if_neg (by omega), Nat.sub_sub, ← List.length_append]
        exact later
    · have none_ : ¬ 0 < cap - out.length := by omega
      exact Or.inl ⟨fun wanted => absurd wanted none_, out, by rw [if_neg more]⟩

end Pull

section Arms

variable {decoders : Decoders} {made : Decodings} {src : Bytes} {features : Features} {cap : Nat}
  (documented : Documented decoders made src)

include documented

theorem zstd_capped_iff (enabled : features.zstd = true) (counted : Counted made.zstd cap) :
    Capped (zstdDecompress decoders src cap) made.zstd cap ↔
      (Overflows (declaredSize decoders features .zstd src) cap →
        ∀ stream, made.zstd = some stream → stream.length ≤ cap) := by
  rw [declaredSize, if_pos enabled, zstdDecompress]
  cases declared : decoders.zstdFrameContentSize src with
  | none =>
    apply capped_unless (capped_of_ok ?_ fun bytes returned => ?_) (not_overflows_none cap)
    · intro stopped
      simp only [bind_eq_panicked, mapDecode_ne_panicked, false_or] at stopped
      obtain ⟨_, -, _, -, done⟩ := stopped
      cases done
    · simp only [bind_eq_ok, mapDecode_eq_ok] at returned
      obtain ⟨decoder, opened, sink, copied, same⟩ := returned
      cases same
      exact copy_capped counted (documented.zstd_decoder _ declared opened) copied
  | some size =>
    by_cases beyond : size > cap
    · simp only [if_pos beyond]
      apply capped_unless (capped_fail _ _ _)
      intro overflows
      obtain ⟨_, ⟨⟩, -, within⟩ := overflows
      omega
    · simp only [if_neg beyond]
      by_cases small : size < sliceLimit
      · rw [allocate_of_lt small, ok_bind]
        apply capped_unless (capped_of_ok (mapDecode_ne_panicked _ _) fun bytes returned => ?_)
        · intro overflows
          obtain ⟨_, ⟨⟩, large, -⟩ := overflows
          omega
        · obtain ⟨complete, bound⟩ := documented.zstd_bulk _ _ declared (mapDecode_eq_ok.mp returned)
          exact ⟨complete, by omega⟩
      · have overflows : Overflows (some size) cap := ⟨size, rfl, by omega, by omega⟩
        rw [allocate_eq_panicked.mpr (by omega), error_bind]
        simp only [overflows, true_implies]
        exact capped_panicked

/-- `lzma_rs` accepts exactly the streams that finish within the cap. -/
theorem lzma_accepts (counted : Counted made.xzRs cap) (bytes : Bytes) :
    lzmaDecompress decoders src cap = .ok bytes ↔ made.xzRs = some bytes ∧ bytes.length ≤ cap := by
  have complete := documented.xz_decompress
  unfold lzmaDecompress
  dsimp only
  cases failed : (decoders.xzDecompress src).failure with
  | some error =>
    rw [failed, if_neg (by simp)] at complete
    rw [complete]
    split <;> simp
  | none =>
    rw [failed, if_pos rfl] at complete
    have fed := feed_eq_done writeAll_absorbs (decoders.xzDecompress src).pieces (.new cap)
    simp only [takes_new (complete ▸ counted)] at fed
    rw [complete]
    cases run : feed CappedWriter.writeAll (decoders.xzDecompress src).pieces (.new cap) with
    | mk sink refused =>
      cases refused with
      | some error =>
        simp only [reduceCtorEq, false_iff]
        intro taken
        obtain ⟨⟨⟩, bound⟩ := taken
        have accepted := (fed _).mpr ⟨rfl, bound⟩
        simp [run] at accepted
      | none =>
        obtain ⟨rfl, bound⟩ := (fed sink).mp run
        simp only [CappedWriter.intoInner, Except.ok.injEq, Option.some.injEq]
        exact ⟨fun same => ⟨same, same ▸ bound⟩, fun same => same.1⟩

theorem lzma_capped (counted : Counted made.xzRs cap) :
    Capped (lzmaDecompress decoders src cap) made.xzRs cap := by
  apply capped_of_ok
  · unfold lzmaDecompress
    dsimp only
    split
    · simp
    · split <;> simp
  · exact fun bytes returned => (lzma_accepts documented counted bytes).mp returned

/-- The loop over liblzma returns the whole of what is within the cap, and something of everything
that is not. -/
theorem lzmaNative_cases :
    (Within (decoders.xzDecoder src) made.xzNative cap ∧
      ((∃ stream, made.xzNative = some stream ∧
          lzmaNativeDecompress decoders src cap = .ok stream) ∨
        (made.xzNative = none ∧ ∃ reason, lzmaNativeDecompress decoders src cap = fail reason))) ∨
    (¬ Within (decoders.xzDecoder src) made.xzNative cap ∧
      ∃ bytes, lzmaNativeDecompress decoders src cap = .ok bytes ∧
        ∀ stream, made.xzNative = some stream → bytes.length < stream.length) := by
  have makes := documented.xz_decoder
  unfold lzmaNativeDecompress
  cases whole : made.xzNative with
  | some stream =>
    rw [whole] at makes
    have read := @readStream_whole cap cap (Nat.le_refl _) _ _ makes [] (Nat.zero_le _)
    rw [List.nil_append, List.length_nil, Nat.sub_zero] at read
    rw [Within, read]
    by_cases short : stream.length ≤ cap
    · exact Or.inl ⟨short, Or.inl ⟨stream, rfl, by rw [List.take_of_length_le short]⟩⟩
    · refine Or.inr ⟨short, _, rfl, ?_⟩
      intro other same
      cases same
      rw [List.length_take]
      omega
  | none =>
    rw [whole] at makes
    rcases @readStream_broken cap _ makes [] (Nat.zero_le _) with
      ⟨fills, bytes, read⟩ | ⟨breaks, read⟩
    · exact Or.inr ⟨not_not.mpr fills, bytes, read, fun _ absurd_ => nomatch absurd_⟩
    · exact Or.inl ⟨breaks, Or.inr ⟨rfl, read⟩⟩

/-- It keeps to the cap exactly on the streams that are within it. -/
theorem lzmaNative_capped_iff :
    Capped (lzmaNativeDecompress decoders src cap) made.xzNative cap ↔
      Within (decoders.xzDecoder src) made.xzNative cap := by
  rcases @lzmaNative_cases _ _ _ cap documented with
    ⟨within, ⟨stream, whole, read⟩ | ⟨broken, reason, read⟩⟩ | ⟨beyond, bytes, read, shorter⟩
  · apply iff_of_true (capped_of_ok (by rw [read]; simp) _) within
    intro bytes returned
    rw [read, Except.ok.injEq] at returned
    rw [whole, Within] at within
    exact ⟨by rw [whole, returned], returned ▸ within⟩
  · exact iff_of_true (by rw [read]; exact capped_fail _ _ _) within
  · apply iff_of_false _ beyond
    intro capped
    have complete := (capped.2 bytes read).1
    exact absurd (shorter bytes complete) (Nat.lt_irrefl _)

theorem lzmaNative_accepts :
    (∃ bytes, lzmaNativeDecompress decoders src cap = .ok bytes) ↔
      ((∃ stream, made.xzNative = some stream) ∨
        ¬ Within (decoders.xzDecoder src) made.xzNative cap) := by
  rcases @lzmaNative_cases _ _ _ cap documented with
    ⟨within, ⟨stream, whole, read⟩ | ⟨broken, reason, read⟩⟩ | ⟨beyond, bytes, read, -⟩
  · exact iff_of_true ⟨_, read⟩ (Or.inl ⟨_, whole⟩)
  · apply iff_of_false
    · intro accepted
      obtain ⟨bytes, returned⟩ := accepted
      rw [read] at returned
      cases returned
    · intro either
      cases either with
      | inl complete =>
        obtain ⟨stream, whole⟩ := complete
        rw [broken] at whole
        cases whole
      | inr beyond => exact beyond within
  · exact iff_of_true ⟨_, read⟩ (Or.inr beyond)

theorem lz4_capped : Capped (lz4Decompress decoders src cap) made.lz4 cap := by
  apply capped_of_ok
  · unfold lz4Decompress
    dsimp only
    repeat' split
    all_goals simp
  · intro bytes returned
    unfold lz4Decompress at returned
    dsimp only at returned
    split at returned
    · cases returned
    · split at returned
      · cases returned
      · split at returned
        · rename_i decoded
          cases returned
          obtain ⟨complete, bound⟩ := documented.lz4_block _ decoded
          exact ⟨complete, by omega⟩
        · cases returned

theorem brotli_capped_iff (enabled : features.brotli = true) (counted : Counted made.brotli cap) :
    Capped (brotliDecompress decoders src cap) made.brotli cap ↔
      (Overflows (declaredSize decoders features .brotli src) cap →
        ∀ stream, made.brotli = some stream → stream.length ≤ cap) := by
  rw [declaredSize, if_pos enabled, brotliDecompress]
  cases read : readLeb128U64 src with
  | error failure =>
    cases failure with
    | err reason => exact capped_unless (capped_fail _ _ _) (not_overflows_none cap)
    | panic => exact absurd read (readLeb128From_ne_panicked _ _ _)
  | ok prefixed =>
    obtain ⟨declared, consumed⟩ := prefixed
    simp only [ok_bind]
    by_cases beyond : declared > cap
    · rw [if_pos beyond]
      apply capped_unless (capped_fail _ _ _)
      intro overflows
      obtain ⟨_, ⟨⟩, -, within⟩ := overflows
      omega
    · rw [if_neg beyond, CappedWriter.withExpectedSize, Nat.min_eq_left (Nat.le_of_not_lt beyond)]
      by_cases small : declared < sliceLimit
      · simp only [allocate_of_lt small, ok_bind, pure_eq_ok]
        apply capped_unless (capped_of_ok ?_ fun bytes returned => ?_)
        · intro overflows
          obtain ⟨_, ⟨⟩, large, -⟩ := overflows
          omega
        · simp [bind_eq_panicked, mapDecode_ne_panicked]
        · simp only [bind_eq_ok, mapDecode_eq_ok] at returned
          obtain ⟨sink, copied, same⟩ := returned
          cases same
          exact copy_capped counted (documented.brotli_decompressor _ _ read) copied
      · have overflows : Overflows (some declared) cap := ⟨declared, rfl, by omega, by omega⟩
        rw [allocate_eq_panicked.mpr (by omega), error_bind, error_bind]
        simp only [overflows, true_implies]
        exact capped_panicked

end Arms

/-- A payload comes back whole and within its cap or is refused, in every build and by every
codec, unless liblzma makes a stream of it that is not through by the cap, or the size it declares
overflows and the stream is longer than the cap all the same. Where both xz decoders make the same
of a payload, the first of these tells the two lzma backends apart. -/
theorem decompress_capped_iff (decoders : Decoders) (made : Decodings) (features : Features)
    (base : Libraries) (codec : Compression) (src : Bytes) (cap : Nat)
    (documented : Documented decoders made src)
    (counted : Counted (made.of features codec src) cap) (counted_rs : Counted made.xzRs cap) :
    (Capped (decompress (decoders.libraries features base) codec src cap)
        (made.of features codec src) cap ↔
      (features.lzmaNative = true → codec = .lzma →
        Within (decoders.xzDecoder src) made.xzNative cap) ∧
      (Overflows (declaredSize decoders features codec src) cap →
        ∀ stream, made.of features codec src = some stream → stream.length ≤ cap)) ∧
    (made.xzRs = made.xzNative →
      (((∃ bytes, lzmaDecompress decoders src cap = .ok bytes) ↔
          ∃ bytes, lzmaNativeDecompress decoders src cap = .ok bytes) ↔
        Within (decoders.xzDecoder src) made.xzNative cap)) := by
  constructor
  · rw [decompress_libraries]
    cases codec with
    | none =>
      apply iff_of_true (capped_of_ok _ _)
        ⟨by simp, fun overflows => absurd overflows (not_overflows_none cap)⟩
      · simp only [Decoders.decode, noneDecompress]
        split <;> simp
      · intro bytes returned
        simp only [Decoders.decode, noneDecompress] at returned
        split at returned
        · cases returned
        · cases returned
          exact ⟨rfl, by omega⟩
    | zstd =>
      simp only [Decoders.decode, reduceCtorEq, false_implies, implies_true, true_and]
      split
      · rename_i enabled
        exact zstd_capped_iff documented enabled counted
      · rename_i disabled
        apply capped_unless (capped_fail _ _ _)
        simp [declaredSize, disabled, not_overflows_none]
    | lzma =>
      have calm : Overflows (declaredSize decoders features .lzma src) cap →
          ∀ stream, made.of features .lzma src = some stream → stream.length ≤ cap :=
        fun overflows => absurd overflows (not_overflows_none cap)
      simp only [Decoders.decode, Decodings.of, true_implies] at calm ⊢
      by_cases native : features.lzmaNative = true
      · rw [if_pos native, if_pos native, lzmaNative_capped_iff documented]
        exact ⟨fun within => ⟨fun _ => within, fun overflows => absurd overflows
          (not_overflows_none cap)⟩, fun holds => holds.1 native⟩
      · apply iff_of_true _ ⟨fun chosen => absurd chosen native, calm⟩
        rw [if_neg native, if_neg native]
        split
        · exact lzma_capped documented counted_rs
        · exact capped_fail _ _ _
    | lz4 | lz4Hc =>
      apply iff_of_true _ ⟨by simp, fun overflows => absurd overflows (not_overflows_none cap)⟩
      simp only [Decoders.decode]
      split
      · exact lz4_capped documented
      · exact capped_fail _ _ _
    | brotli =>
      simp only [Decoders.decode, reduceCtorEq, false_implies, implies_true, true_and]
      split
      · rename_i enabled
        exact brotli_capped_iff documented enabled counted
      · rename_i disabled
        apply capped_unless (capped_fail _ _ _)
        simp [declaredSize, disabled, not_overflows_none]
    | flac | ricepp | unknown =>
      exact iff_of_true (capped_fail _ _ _)
        ⟨by simp, fun overflows => absurd overflows (not_overflows_none cap)⟩
  · intro same
    rw [lzmaNative_accepts documented]
    simp only [lzma_accepts documented counted_rs, same]
    cases made.xzNative with
    | some stream => simp [Within]
    | none => simp [Within]

section Inputs

/-- A reader that hands out as much as there is room for, in at most `calls` calls. -/
def lending : Nat → Bytes → Reader
  | 0, _ => .ended
  | _ + 1, [] => .ended
  | calls + 1, byte :: rest =>
    .call (fun room => .ok ((byte :: rest).take room)) fun room =>
      lending calls ((byte :: rest).drop room)

theorem lending_delivers (retrying : Bool) {calls : Nat} {bytes : Bytes}
    (enough : bytes.length ≤ calls) : Delivers retrying (lending calls bytes) bytes := by
  induction calls generalizing bytes with
  | zero => exact List.length_eq_zero_iff.mp (Nat.le_zero.mp enough)
  | succ calls ih =>
    cases bytes with
    | nil => rfl
    | cons byte rest =>
      intro room spacious
      refine ⟨by simp; omega, List.length_take_le _ _, _, (List.take_append_drop _ _).symm, ih ?_⟩
      rw [List.length_drop]
      simp only [List.length_cons] at enough ⊢
      omega

/-- The xz stream of 07 08, with a CRC64 over them. -/
def xzPayload : Bytes := [
  253, 55, 122, 88, 90, 0, 0, 4, 230, 214, 180, 70, 2, 0, 33, 1, 22, 0, 0, 0, 116, 47, 229, 163,
  1, 0, 1, 7, 8, 0, 0, 0, 71, 47, 104, 151, 74, 9, 247, 137, 0, 1, 26, 2, 220, 46, 165, 126,
  31, 182, 243, 125, 1, 0, 0, 0, 0, 4, 89, 90]

def unknownFrame : IoError where
  interrupted := false
  message := "Unknown frame descriptor"

/-- The packages on `xzPayload`: both xz decoders make two bytes of it, and no other knows it.
Whatever else they are given counts as broken. -/
def xzPackages : Decoders where
  zstdFrameContentSize _ := none
  zstdBulk _ _ := .error unknownFrame
  zstdDecoder _ := .ok (.raises unknownFrame)
  xzDecompress src :=
    if src = xzPayload then { pieces := [[7, 8]], failure := none }
    else { pieces := [], failure := some (.other "xz error") }
  xzDecoder src :=
    if src = xzPayload then lending 2 [7, 8]
    else .raises { interrupted := false, message := "stream/file format not recognized" }
  lz4Block _ _ := .error "the offset to copy is not contained in the decompressed buffer"
  brotliDecompressor _ := .raises { interrupted := false, message := "Invalid Data" }

def xzMade : Decodings where
  zstd := none
  xzRs := some [7, 8]
  xzNative := some [7, 8]
  lz4 := none
  brotli := none

theorem documented_xzPackages : Documented xzPackages xzMade xzPayload where
  zstd_bulk _ _ _ decoded := nomatch decoded
  zstd_decoder reader _ opened := by
    obtain rfl := Except.ok.inj opened
    exact breaks_raises true rfl
  xz_decompress := by decide
  xz_decoder := by
    simp only [xzPackages, if_true]
    exact lending_delivers false (by decide)
  lz4_block _ decoded := nomatch decoded
  brotli_decompressor _ _ _ := breaks_raises true rfl

/-- The default build with liblzma. -/
def nativeBuild : Features where
  zstd := true
  lzma := true
  lzmaNative := true
  lz4 := true
  brotli := true
  native_lzma _ := rfl

def noLibraries : Libraries where
  xxh3 _ := 0
  decode _ _ _ := fail (.codecUnimplemented "")
  decodePrefix _ _ _ := .ok none

theorem decompress_capped_two :
    (Capped (decompress (xzPackages.libraries nativeBuild noLibraries) .lzma xzPayload 2)
        (xzMade.of nativeBuild .lzma xzPayload) 2 ↔
      (nativeBuild.lzmaNative = true → Compression.lzma = .lzma →
        Within (xzPackages.xzDecoder xzPayload) xzMade.xzNative 2) ∧
      (Overflows (declaredSize xzPackages nativeBuild .lzma xzPayload) 2 →
        ∀ stream, xzMade.of nativeBuild .lzma xzPayload = some stream → stream.length ≤ 2)) ∧
    (xzMade.xzRs = xzMade.xzNative →
      (((∃ bytes, lzmaDecompress xzPackages xzPayload 2 = .ok bytes) ↔
          ∃ bytes, lzmaNativeDecompress xzPackages xzPayload 2 = .ok bytes) ↔
        Within (xzPackages.xzDecoder xzPayload) xzMade.xzNative 2)) :=
  decompress_capped_iff xzPackages xzMade nativeBuild noLibraries .lzma xzPayload 2
    documented_xzPackages (Or.inl (by decide)) (Or.inl (by decide))

/-- Two bytes under a cap of one: liblzma's first byte is returned as the payload, where
`lzma_rs` refuses it. -/
theorem truncates_at_cap :
    Documented xzPackages xzMade xzPayload ∧
      decompress (xzPackages.libraries nativeBuild noLibraries) .lzma xzPayload 1 = .ok [7] ∧
      xzMade.of nativeBuild .lzma xzPayload = some [7, 8] ∧
      lzmaDecompress xzPackages xzPayload 1 =
        fail (.decode "lzma" "io: output exceeded cap of 1 bytes") ∧
      ¬ Capped (decompress (xzPackages.libraries nativeBuild noLibraries) .lzma xzPayload 1)
        (xzMade.of nativeBuild .lzma xzPayload) 1 := by
  have read : decompress (xzPackages.libraries nativeBuild noLibraries) .lzma xzPayload 1 =
      .ok [7] := by
    decide
  refine ⟨documented_xzPackages, read, rfl, by decide, fun capped => ?_⟩
  obtain ⟨complete, -⟩ := capped.2 _ read
  exact absurd complete (by decide)

end Inputs

end Rdwarfs.Guarantees.DecodedCap
