import Rdwarfs.Guarantees.DecodedCap

/-!
# A partial decode is the front of the whole

Three codecs stop in three ways once enough bytes are out: a loop that counts, a sink that fails,
a pull that asks for no more. Each returns the front of the stream, as much of it as was needed
or there is.
-/
namespace Rdwarfs.Guarantees.PartialDecode

open Lib.Machine Lib.Streams Source Source.Format Source.Codecs DecodedCap

/-- The decoder of the payload makes `stream` without an error, in whatever pieces. -/
inductive Produces (decoders : Decoders) (features : Features) (src stream : Bytes) :
    Compression → Prop
  | zstd {reader : Reader} (enabled : features.zstd = true)
      (opened : decoders.zstdDecoder src = .ok reader) (delivers : Delivers false reader stream) :
      Produces decoders features src stream .zstd
  | lzmaRs (enabled : features.lzma = true) (pure_ : features.lzmaNative = false)
      (made : (decoders.xzDecompress src).pieces.flatten = stream)
      (ended : (decoders.xzDecompress src).failure = none) :
      Produces decoders features src stream .lzma
  | lzmaNative (native : features.lzmaNative = true)
      (delivers : Delivers false (decoders.xzDecoder src) stream) :
      Produces decoders features src stream .lzma

/-- liblzma is pulled through a buffer of its own; the others need one of the size asked for. -/
def Allocatable (features : Features) (codec : Compression) (needed : Nat) : Prop :=
  (codec = .lzma ∧ features.lzmaNative = true) ∨ needed < sliceLimit

/-- The count keeps to the front of the stream. -/
theorem zstdFill_eq {needed : Nat} {reader : Reader} {left : Bytes}
    (delivers : Delivers false reader left) (out : Bytes) (room : out.length ≤ needed) :
    zstdFill needed reader out = .ok (out ++ left.take (needed - out.length)) := by
  induction reader generalizing left out with
  | ended =>
    rw [Delivers] at delivers
    subst delivers
    rw [zstdFill]
    simp
  | call answer rest ih =>
    rw [zstdFill]
    by_cases more : out.length < needed
    · have read := delivers _ (Nat.sub_pos_of_lt more)
      cases answered : answer (needed - out.length) with
      | error error => simp [answered] at read
      | ok piece =>
        simp only [answered] at read
        obtain ⟨some_, short, later, rfl, onward⟩ := read
        have bound : (out ++ piece).length ≤ needed := by
          rw [List.length_append]
          omega
        simp only [if_pos more, answered, if_neg some_]
        rw [ih _ onward _ bound, List.append_assoc, List.take_append,
          List.take_of_length_le short, List.length_append, Nat.sub_add_eq]
    · have full : needed - out.length = 0 := by omega
      rw [if_neg more, full]
      simp

section Sink

variable {writer : PrefixWriter}

/-- While there is room left over, a write takes everything. -/
theorem writeAll_of_room {data : Bytes} (room : writer.buf.length + data.length < writer.needed) :
    writer.writeAll data = ({ writer with buf := writer.buf ++ data }, none) := by
  by_cases empty : data = []
  · subst empty
    rw [PrefixWriter.writeAll, dif_pos rfl, List.append_nil]
  · obtain ⟨count, counted⟩ : ∃ count, data.length = count + 1 :=
      ⟨data.length - 1, by have := List.length_pos_iff.mpr empty; omega⟩
    have wrote : writer.write data =
        ({ writer with buf := writer.buf ++ data }, .ok (count + 1)) := by
      unfold PrefixWriter.write
      dsimp only
      rw [Nat.min_eq_right (by omega), List.take_length, if_neg (by
        rw [List.length_append]
        omega), counted]
    rw [PrefixWriter.writeAll, dif_neg empty, wrote]
    dsimp only
    rw [← counted, List.drop_length, PrefixWriter.writeAll, dif_pos rfl]

/-- The write that fills the buffer takes what it needs, and fails. -/
theorem writeAll_of_full {data : Bytes} (some_ : data ≠ [])
    (full : writer.needed ≤ writer.buf.length + data.length)
    (within : writer.buf.length ≤ writer.needed) :
    writer.writeAll data =
      ({ writer with buf := writer.buf ++ data.take (writer.needed - writer.buf.length) },
        some { interrupted := false, message := prefixComplete }) := by
  have wrote : writer.write data =
      ({ writer with buf := writer.buf ++ data.take (writer.needed - writer.buf.length) },
        .error { interrupted := false, message := prefixComplete }) := by
    unfold PrefixWriter.write
    dsimp only
    rw [Nat.min_eq_left (by omega), if_pos]
    rw [List.length_append, List.length_take, ge_iff_le]
    omega
  rw [PrefixWriter.writeAll, dif_neg some_, wrote]

/-- However the stream is cut, the sink ends with its front, and fails with its own error or not
at all. -/
theorem feed_front (pieces : List Bytes) (within : writer.buf.length ≤ writer.needed) :
    ∃ failed, feed PrefixWriter.writeAll pieces writer =
        ({ writer with
            buf := writer.buf ++ pieces.flatten.take (writer.needed - writer.buf.length) }, failed) ∧
      (failed = none ∨ failed = some { interrupted := false, message := prefixComplete }) := by
  induction pieces generalizing writer with
  | nil => exact ⟨none, by simp [feed], Or.inl rfl⟩
  | cons piece rest ih =>
    rw [feed, List.flatten_cons]
    by_cases empty : piece = []
    · subst empty
      rw [PrefixWriter.writeAll, dif_pos rfl]
      exact ih within
    · by_cases room : writer.buf.length + piece.length < writer.needed
      · rw [writeAll_of_room room]
        obtain ⟨failed, fed, kind⟩ := @ih { writer with buf := writer.buf ++ piece } (by
          simp only [List.length_append]
          omega)
        have front : (piece ++ rest.flatten).take (writer.needed - writer.buf.length) =
            piece ++ rest.flatten.take (writer.needed - (writer.buf ++ piece).length) := by
          rw [List.take_append, List.take_of_length_le (by omega), List.length_append, Nat.sub_add_eq]
        rw [front, ← List.append_assoc]
        exact ⟨failed, fed, kind⟩
      · have full := Nat.le_of_not_lt room
        rw [writeAll_of_full empty full within]
        refine ⟨_, ?_, Or.inr rfl⟩
        rw [List.take_append_of_le_length (by omega)]

end Sink

section Arms

variable {decoders : Decoders} {features : Features} {src stream : Bytes} {codec : Compression}

theorem zstd_front {needed : Nat} {reader : Reader} (opened : decoders.zstdDecoder src = .ok reader)
    (delivers : Delivers false reader stream) (fits : needed < sliceLimit) :
    zstdDecompressPrefix decoders src needed = .ok (stream.take needed) := by
  unfold zstdDecompressPrefix
  rw [opened, mapDecode, ok_bind, allocate_of_lt fits, ok_bind,
    zstdFill_eq delivers [] (Nat.zero_le _)]
  simp

theorem lzma_front {needed : Nat} (made : (decoders.xzDecompress src).pieces.flatten = stream)
    (ended : (decoders.xzDecompress src).failure = none) (fits : needed < sliceLimit) :
    lzmaDecompressPrefix decoders src needed = .ok (stream.take needed) := by
  obtain ⟨failed, fed, kind⟩ := @feed_front { buf := [], needed } (decoders.xzDecompress src).pieces
    (Nat.zero_le _)
  have complete : PrefixWriter.isComplete { interrupted := false, message := prefixComplete } =
      true := by decide
  unfold lzmaDecompressPrefix
  rw [PrefixWriter.new, allocate_of_lt fits, ok_bind, ok_bind]
  dsimp only
  rw [fed, made]
  rcases kind with rfl | rfl
  · dsimp only
    rw [ended]
    simp [PrefixWriter.intoInner]
  · dsimp only
    rw [complete]
    simp [PrefixWriter.intoInner]

theorem lzmaNative_front {needed : Nat}
    (delivers : Delivers false (decoders.xzDecoder src) stream) :
    lzmaNativeDecompressPrefix decoders src needed = .ok (stream.take needed) := by
  unfold lzmaNativeDecompressPrefix
  rw [readStream_whole (Nat.le_refl _) delivers [] (Nat.zero_le _)]
  simp

/-- However a codec stops, it returns the front of the stream. -/
theorem decompressPrefix_front {needed : Nat}
    (produces : Produces decoders features src stream codec)
    (allocatable : Allocatable features codec needed) :
    decoders.decompressPrefix features codec src needed = .ok (some (stream.take needed)) := by
  unfold Decoders.decompressPrefix
  cases produces with
  | zstd enabled opened delivers =>
    have fits := allocatable.resolve_left (by simp)
    simp [enabled, zstd_front opened delivers fits]
  | lzmaRs enabled pure_ made ended =>
    have fits := allocatable.resolve_left (by simp [pure_])
    simp [enabled, pure_, lzma_front made ended fits]
  | lzmaNative native delivers => simp [native, lzmaNative_front delivers]

/-- As many bytes as were needed, or all there are, from the front of the stream. -/
theorem partial_decode {needed : Nat} (produces : Produces decoders features src stream codec)
    (allocatable : Allocatable features codec needed) :
    ∃ decoded, decoders.decompressPrefix features codec src needed = .ok (some decoded) ∧
      decoded <+: stream ∧ decoded.length = min needed stream.length :=
  ⟨_, decompressPrefix_front produces allocatable, List.take_prefix _ _, List.length_take⟩

end Arms

section Inputs

/-- A zstd frame of `hello`, stored raw, its size declared. -/
def helloFrame : Bytes := [40, 181, 47, 253, 32, 5, 41, 0, 0, 104, 101, 108, 108, 111]

/-- The packages on `helloFrame`, which only zstd knows; on all else they are those of
`xzPayload`. -/
def helloPackages : Decoders :=
  { xzPackages with
    zstdFrameContentSize := fun src => if src = helloFrame then some 5 else none
    zstdBulk := fun src capacity =>
      if src = helloFrame then
        if 5 ≤ capacity then .ok [104, 101, 108, 108, 111]
        else .error { interrupted := false, message := "Destination buffer is too small" }
      else .error unknownFrame
    zstdDecoder := fun src =>
      .ok (if src = helloFrame then lending 5 [104, 101, 108, 108, 111] else .raises unknownFrame) }

theorem helloFrame_produces (features : Features) (enabled : features.zstd = true) :
    Produces helloPackages features helloFrame [104, 101, 108, 108, 111] .zstd :=
  .zstd enabled (congrArg Except.ok (if_pos rfl)) (lending_delivers false (by decide))

theorem partial_decode_hello :
    ∃ decoded, helloPackages.decompressPrefix nativeBuild .zstd helloFrame 2 = .ok (some decoded) ∧
      decoded <+: [104, 101, 108, 108, 111] ∧ decoded.length = 2 :=
  partial_decode (helloFrame_produces nativeBuild rfl) (Or.inr (by decide))

/-- No buffer of 2^63 bytes can be asked for. -/
theorem needed_overflows :
    ¬ ∀ (decoders : Decoders) (features : Features) (codec : Compression) (src stream : Bytes)
        (needed : Nat), Produces decoders features src stream codec → needed < wordLimit →
      ∃ decoded, decoders.decompressPrefix features codec src needed = .ok (some decoded) ∧
        decoded <+: stream ∧ decoded.length = min needed stream.length := by
  intro claimed
  obtain ⟨decoded, returned, -⟩ := claimed helloPackages nativeBuild .zstd helloFrame _ (2 ^ 63)
    (helloFrame_produces nativeBuild rfl) (by decide)
  have panics : helloPackages.decompressPrefix nativeBuild .zstd helloFrame (2 ^ 63) = panicked := by
    decide
  rw [panics] at returned
  cases returned

end Inputs

end Rdwarfs.Guarantees.PartialDecode
