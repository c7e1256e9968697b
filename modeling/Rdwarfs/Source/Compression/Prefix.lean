import Mathlib.Data.List.Infix
import Rdwarfs.Source.Compression.Arms

/-!
# Stopping early

compression/mod.rs:58-72, zstd.rs:53-67, lzma.rs:47-57 and 66-68, capped.rs:85-127: the three
ways to stop are a read loop over zstd, a sink that fails once it holds enough for `lzma_rs`, and
the pull from liblzma. Buffers are allocated before they are filled, so that a size no vector can
have panics; running out of memory below that size is not modelled.
-/
namespace Rdwarfs.Source.Codecs

open Lib.Machine Lib.Streams Format

/-- `while filled < needed`, the bytes out so far in `out`. -/
def zstdFill (needed : Nat) : Reader → Bytes → Result Bytes
  | reader, out =>
    if out.length < needed then
      match reader with
      | .ended => .ok out
      | .call answer rest =>
        let room := needed - out.length
        match answer room with
        | .error error => fail (.decode "zstd" error.message)
        | .ok piece => if piece = [] then .ok out else zstdFill needed (rest room) (out ++ piece)
    else .ok out

def zstdDecompressPrefix (decoders : Decoders) (src : Bytes) (needed : Nat) : Result Bytes := do
  let decoder ← mapDecode "zstd" (decoders.zstdDecoder src)
  allocate needed
  zstdFill needed decoder []

/-- `PREFIX_COMPLETE` -/
def prefixComplete : String := "rdwarfs: prefix complete"

/-- The message of `ErrorKind::WriteZero`. -/
def writeZero : IoError where
  interrupted := false
  message := "failed to write whole buffer"

/-- A sink that stops the decoder once it holds `needed` bytes. -/
structure PrefixWriter where
  buf : Bytes
  needed : Nat
  deriving DecidableEq, Repr

namespace PrefixWriter

def new (needed : Nat) : Result PrefixWriter := do
  allocate needed
  .ok { buf := [], needed }

def intoInner (writer : PrefixWriter) : Bytes := writer.buf

/-- `err.to_string().contains(PREFIX_COMPLETE)` -/
def isComplete (error : IoError) : Bool :=
  decide (prefixComplete.toList <:+: error.message.toList)

/-- How many bytes were taken, or the error that says there are enough. -/
def write (writer : PrefixWriter) (data : Bytes) : PrefixWriter × Except IoError Nat :=
  let room := writer.needed - writer.buf.length
  let take := min room data.length
  let writer := { writer with buf := writer.buf ++ data.take take }
  if writer.buf.length ≥ writer.needed then
    (writer, .error { interrupted := false, message := prefixComplete })
  else (writer, .ok take)

/-- `write_all`, over a `write` that is never interrupted. -/
def writeAll (writer : PrefixWriter) (data : Bytes) : PrefixWriter × Option IoError :=
  if _empty : data = [] then (writer, none)
  else
    match writer.write data with
    | (writer, .error error) => (writer, some error)
    | (writer, .ok 0) => (writer, some writeZero)
    | (writer, .ok (taken + 1)) => writeAll writer (data.drop (taken + 1))
termination_by data.length
decreasing_by
  have some_ := List.length_pos_iff.mpr _empty
  rw [List.length_drop]
  omega

end PrefixWriter

/-- Decoding by `lzma_rs`; the error of the sink that has enough is a success. -/
def lzmaDecompressPrefix (decoders : Decoders) (src : Bytes) (needed : Nat) : Result Bytes := do
  let sink ← PrefixWriter.new needed
  let run := decoders.xzDecompress src
  match feed PrefixWriter.writeAll run.pieces sink with
  | (sink, some error) =>
    if PrefixWriter.isComplete error then .ok sink.intoInner
    else fail (.decode "lzma" (LzmaError.ioError error).message)
  | (sink, none) =>
    match run.failure with
    | none => .ok sink.intoInner
    | some (.ioError error) =>
      if PrefixWriter.isComplete error then .ok sink.intoInner
      else fail (.decode "lzma" (LzmaError.ioError error).message)
    | some error => fail (.decode "lzma" error.message)

/-- Decoding by liblzma, whose buffer starts with at most 64 MiB. -/
def lzmaNativeDecompressPrefix (decoders : Decoders) (src : Bytes) (needed : Nat) : Result Bytes :=
  readStream needed needed (decoders.xzDecoder src) []

/-- `decompress_prefix`; `none` when no codec of the build can stop early. -/
def Decoders.decompressPrefix (decoders : Decoders) (features : Features) (codec : Compression)
    (src : Bytes) (needed : Nat) : Result (Option Bytes) :=
  match codec with
  | .zstd =>
    if features.zstd then do
      let bytes ← zstdDecompressPrefix decoders src needed
      return some bytes
    else .ok none
  | .lzma =>
    if features.lzmaNative then do
      let bytes ← lzmaNativeDecompressPrefix decoders src needed
      return some bytes
    else if features.lzma then do
      let bytes ← lzmaDecompressPrefix decoders src needed
      return some bytes
    else .ok none
  | _ => .ok none

/-- The packages of one build, `base` giving the rest. -/
def Decoders.libraries (decoders : Decoders) (features : Features) (base : Libraries) :
    Libraries :=
  { base with
    decode := decoders.decode features
    decodePrefix := decoders.decompressPrefix features }

theorem decompress_libraries (decoders : Decoders) (features : Features) (base : Libraries)
    (codec : Compression) (src : Bytes) (cap : Nat) :
    decompress (decoders.libraries features base) codec src cap =
      decoders.decode features codec src cap := by
  cases codec <;> rfl

theorem decompressPrefix_libraries (decoders : Decoders) (features : Features) (base : Libraries)
    (codec : Compression) (src : Bytes) (needed : Nat) :
    decompressPrefix (decoders.libraries features base) codec src needed =
      decoders.decompressPrefix features codec src needed := by
  cases codec <;> rfl

end Rdwarfs.Source.Codecs
