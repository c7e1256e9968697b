import Rdwarfs.Source.Compression
import Rdwarfs.Source.Compression.Capped

/-!
# The codecs of a build

compression/zstd.rs:19-46, lzma.rs:22-39 and 60-96, lz4.rs:16-35, brotli.rs:15-73, and the
feature flags of Cargo.toml that choose among them. `Decoders` is what they call of the packages
that decode. How much memory those packages take themselves is not modelled.
-/
namespace Rdwarfs.Source.Codecs

open Lib.Machine Lib.Streams Format

/-- Cargo features; `lzma-native` brings `lzma` with it. -/
structure Features where
  zstd : Bool
  lzma : Bool
  lzmaNative : Bool
  lz4 : Bool
  brotli : Bool
  native_lzma : lzmaNative = true → lzma = true

/-- `lzma_rs::error::Error` -/
inductive LzmaError where
  | ioError (error : IoError)
  | other (message : String)
  deriving DecidableEq, Repr

/-- The writes a decoder makes into its sink, and the error it stops in of itself. -/
structure Feed where
  pieces : List Bytes
  failure : Option LzmaError
  deriving DecidableEq, Repr

structure Decoders where
  /-- `zstd_safe::get_frame_content_size`, where it is `Ok(Some(_))`. -/
  zstdFrameContentSize : Bytes → Option Nat
  /-- `zstd::bulk::decompress` -/
  zstdBulk : Bytes → Nat → Except IoError Bytes
  /-- `zstd::Decoder::with_buffer` -/
  zstdDecoder : Bytes → Except IoError Reader
  /-- `lzma_rs::xz_decompress` -/
  xzDecompress : Bytes → Feed
  /-- `liblzma::read::XzDecoder::new` -/
  xzDecoder : Bytes → Reader
  /-- `lz4_flex::block::decompress` -/
  lz4Block : Bytes → Nat → Except String Bytes
  /-- `brotli::Decompressor::new` -/
  brotliDecompressor : Bytes → Reader

/-- `map_decode` and `map_io_err`. -/
def mapDecode {α : Type} (codec : String) (outcome : Except IoError α) : Result α :=
  match outcome with
  | .ok value => .ok value
  | .error error => fail (.decode codec error.message)

/-- The buffer of `io::copy`, and the one brotli's loop has of its own. -/
def copyBufLen : Nat := 8192

def zstdDecompress (decoders : Decoders) (src : Bytes) (cap : Nat) : Result Bytes :=
  match decoders.zstdFrameContentSize src with
  | some size =>
    if size > cap then fail (.decode "zstd" s!"frame declares {size} bytes, cap is {cap}")
    else do
      allocate size
      mapDecode "zstd" (decoders.zstdBulk src size)
  | none => do
    let decoder ← mapDecode "zstd" (decoders.zstdDecoder src)
    let sink ← mapDecode "zstd" (copy CappedWriter.writeAll copyBufLen decoder (.new cap))
    .ok sink.intoInner

def LzmaError.message : LzmaError → String
  | .ioError error => s!"io: {error.message}"
  | .other message => message

/-- Decoding by `lzma_rs`, which hands a failed write of its sink on as its own error. -/
def lzmaDecompress (decoders : Decoders) (src : Bytes) (cap : Nat) : Result Bytes :=
  let run := decoders.xzDecompress src
  match feed CappedWriter.writeAll run.pieces (.new cap) with
  | (_, some error) => fail (.decode "lzma" (LzmaError.ioError error).message)
  | (sink, none) =>
    match run.failure with
    | some error => fail (.decode "lzma" error.message)
    | none => .ok sink.intoInner

def chunkLen : Nat := 256 * 1024

/-- Pull until `want` bytes are out or the stream ends; `out` is what is out already. -/
def readStream (want cap : Nat) : Reader → Bytes → Result Bytes
  | reader, out =>
    if out.length < want then
      match reader with
      | .ended => .ok out
      | .call answer rest =>
        let room := min (want - out.length) chunkLen
        match answer room with
        | .error error => fail (.decode "lzma" error.message)
        | .ok piece =>
          if piece = [] then .ok out
          else if (out ++ piece).length > cap then
            fail (.decode "lzma" s!"output exceeded cap of {cap} bytes")
          else readStream want cap (rest room) (out ++ piece)
    else .ok out

/-- Decoding by liblzma. -/
def lzmaNativeDecompress (decoders : Decoders) (src : Bytes) (cap : Nat) : Result Bytes :=
  readStream cap cap (decoders.xzDecoder src) []

def lz4Decompress (decoders : Decoders) (src : Bytes) (cap : Nat) : Result Bytes :=
  if src.length < 4 then fail (.decode "lz4" "missing 4-byte size prefix")
  else
    let size := leNat (src.take 4)
    if size > cap then fail (.decode "lz4" s!"declared size {size} exceeds cap {cap}")
    else
      match decoders.lz4Block (src.drop 4) size with
      | .ok bytes => .ok bytes
      | .error message => fail (.decode "lz4" message)

def leb128MaxBytes : Nat := 10

/-- The value and how many bytes it took; `i` and `result` are the loop's own. -/
def readLeb128From (i : Nat) (result : UInt64) : Bytes → Result (Nat × Nat)
  | [] => fail (.decode "brotli" "leb128 size truncated or too long")
  | byte :: rest =>
    -- `checked_shl` only looks at the shift, which ten bytes keep below 64
    if 7 * i < 64 then
      let result := result ||| ((byte &&& 0x7f).toUInt64 <<< UInt64.ofNat (7 * i))
      if byte &&& 0x80 = 0 then .ok (result.toNat, i + 1)
      else readLeb128From (i + 1) result rest
    else fail (.decode "brotli" "leb128 size overflow")

theorem readLeb128From_ne_panicked (src : Bytes) (i : Nat) (result : UInt64) :
    readLeb128From i result src ≠ panicked := by
  induction src generalizing i result with
  | nil => simp [readLeb128From]
  | cons byte rest ih =>
    unfold readLeb128From
    dsimp only
    split
    · split
      · simp
      · exact ih _ _
    · simp

def readLeb128U64 (src : Bytes) : Result (Nat × Nat) :=
  readLeb128From 0 0 (src.take leb128MaxBytes)

def brotliDecompress (decoders : Decoders) (src : Bytes) (cap : Nat) : Result Bytes := do
  let (declared, consumed) ← readLeb128U64 src
  if declared > cap then
    fail (.decode "brotli" s!"declared size {declared} exceeds cap {cap}")
  else
    let decoder := decoders.brotliDecompressor (src.drop consumed)
    let sink ← CappedWriter.withExpectedSize cap declared
    let sink ← mapDecode "brotli" (copy CappedWriter.writeAll copyBufLen decoder sink)
    .ok sink.intoInner

/-- The arms of `decompress` that a feature guards. -/
def Decoders.decode (decoders : Decoders) (features : Features) (codec : Compression)
    (src : Bytes) (cap : Nat) : Result Bytes :=
  match codec with
  | .zstd =>
    if features.zstd then zstdDecompress decoders src cap else fail (.codecDisabled "zstd")
  | .lzma =>
    if features.lzmaNative then lzmaNativeDecompress decoders src cap
    else if features.lzma then lzmaDecompress decoders src cap
    else fail (.codecDisabled "lzma")
  | .lz4 | .lz4Hc =>
    if features.lz4 then lz4Decompress decoders src cap else fail (.codecDisabled "lz4")
  | .brotli =>
    if features.brotli then brotliDecompress decoders src cap
    else fail (.codecDisabled "brotli")
  | .none => noneDecompress src cap
  | .flac => fail (.codecUnimplemented "flac")
  | .ricepp => fail (.codecUnimplemented "ricepp")
  | .unknown value => fail (.unknownCompression value)

end Rdwarfs.Source.Codecs
