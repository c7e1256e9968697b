import Rdwarfs.Source.Metadata.Frozen

/-!
# The bit reader in machine words

metadata/bitbuf.rs:14-105 as it is written: up to nine bytes are gathered in a 128-bit
accumulator, which is shifted and masked. `Metadata.readU64` is the number this comes to.
-/
namespace Rdwarfs.Source.Metadata.BitBuf

open Lib.Machine

/-- `for i in 0..span { acc |= u128::from(self.bytes[byte_off + i]) << (i * 8) }`, with `left`
rounds to go. -/
def gather (bytes : Bytes) (byteOff : Nat) : (left i : Nat) → BitVec 128 → Result (BitVec 128)
  | 0, _, acc => .ok acc
  | left + 1, i, acc => do
    let byte ← index bytes (byteOff + i)
    gather bytes byteOff left (i + 1) (acc ||| byte.toBitVec.setWidth 128 <<< (i * 8))

def mask (numBits : UInt32) : BitVec 128 :=
  if numBits = 64 then (BitVec.allOnes 64).setWidth 128
  else (1#128 <<< numBits.toNat) - 1#128

def bitLen (build : Build) (bytes : Bytes) : Result Nat := (Arith.machine build).mul bytes.length 8

def readU64 (build : Build) (bytes : Bytes) (bitOffset : UInt64) (numBits : UInt32) :
    Result UInt64 :=
  if numBits = 0 then .ok 0
  else do
    refuseIf (numBits > 64) (bitbufError s!"requested {numBits.toNat} bits, max is 64")
    let endBit ← okOr ((Arith.machine build).checkedAdd bitOffset.toNat numBits.toNat)
      (bitbufError "bit offset overflow")
    let len ← bitLen build bytes
    refuseIf (endBit > len) (bitbufError
      s!"read of {numBits.toNat} bits at {bitOffset.toNat} runs past end ({len} bits)")
    let byteOff := (bitOffset / 8).toNat
    let shift := (bitOffset % 8).toUInt32
    let span := ((shift + numBits + 7) / 8).toNat
    let acc ← gather bytes byteOff span 0 0
    return UInt64.ofBitVec ((acc >>> shift.toNat &&& mask numBits).setWidth 64)

def readBool (build : Build) (bytes : Bytes) (bitOffset : UInt64) : Result Bool := do
  let bit ← readU64 build bytes bitOffset 1
  return bit ≠ 0

/-- The top bit of the field is its sign, and is repeated above it. -/
def extend (numBits : UInt32) (raw : UInt64) : Int64 :=
  if numBits = 64 then raw.toInt64
  else
    let signBit : UInt64 := 1 <<< (numBits - 1).toUInt64
    if raw &&& signBit ≠ 0 then (raw ||| (~~~0 <<< numBits.toUInt64)).toInt64
    else raw.toInt64

def readI64 (build : Build) (bytes : Bytes) (bitOffset : UInt64) (numBits : UInt32) :
    Result Int64 :=
  if numBits = 0 then .ok 0
  else do
    refuseIf (numBits > 64) (bitbufError s!"requested {numBits.toNat} signed bits, max 64")
    let raw ← readU64 build bytes bitOffset numBits
    return extend numBits raw

end Rdwarfs.Source.Metadata.BitBuf
