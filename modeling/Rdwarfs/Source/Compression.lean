import Rdwarfs.Source.Format.Header

/-!
# Decompressing a section payload

compression/mod.rs:80-104 and compression/none.rs:7-15. The codecs and the hash live in other
packages: `Libraries` is what this one calls of them, and Arms.lean what it makes of the codecs.
The display names of the codecs are not modelled.
-/
namespace Rdwarfs.Source.Codecs

open Lib.Machine Format

structure Libraries where
  /-- XXH3-64. -/
  xxh3 : Bytes → UInt64
  /-- zstd, lzma, lz4 and brotli, bounded by a cap on the decoded size. -/
  decode : Compression → Bytes → Nat → Result Bytes
  /-- zstd and lzma, stopping early; `none` when the build has no codec that can. -/
  decodePrefix : Compression → Bytes → Nat → Result (Option Bytes)

def noneDecompress (src : Bytes) (cap : Nat) : Result Bytes :=
  if src.length > cap then
    fail (.decode "none" s!"payload size {src.length} exceeds cap {cap}")
  else .ok src

/-- Decode a whole payload into at most `cap` bytes. -/
def decompress (libs : Libraries) (codec : Compression) (src : Bytes) (cap : Nat) :
    Result Bytes :=
  match codec with
  | .none => noneDecompress src cap
  | .zstd | .lzma | .lz4 | .lz4Hc | .brotli => libs.decode codec src cap
  | .flac => fail (.codecUnimplemented "flac")
  | .ricepp => fail (.codecUnimplemented "ricepp")
  | .unknown value => fail (.unknownCompression value)

/-- Decode at least `needed` bytes from the front; `none` when the codec cannot stop
early. -/
def decompressPrefix (libs : Libraries) (codec : Compression) (src : Bytes) (needed : Nat) :
    Result (Option Bytes) :=
  match codec with
  | .zstd | .lzma => libs.decodePrefix codec src needed
  | _ => .ok none

end Rdwarfs.Source.Codecs
