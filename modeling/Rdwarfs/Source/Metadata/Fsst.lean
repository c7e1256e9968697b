import Rdwarfs.Source.Error

/-!
# Fast static symbol tables

metadata/fsst.rs:24-172: one-byte codes for symbols of one to eight bytes, 0xFF escaping a
literal. The accessors that only tests call are not modelled.
-/
namespace Rdwarfs.Source.Metadata

open Lib.Machine

namespace Fsst

def decodeError (message : String) : Error := .decode "fsst" message

/-- `{:#0width$x}` -/
def hex (width value : Nat) : String :=
  let digits := String.ofList (Nat.toDigits 16 value)
  "0x" ++ String.ofList (List.replicate (width - 2 - digits.length) '0') ++ digits

def esc : UInt8 := 0xFF

def version : Nat := 20190218

def headerLen : Nat := 17

def numCodes : Nat := 256

end Fsst

open Fsst

structure SymTable where
  symbols : Bytes
  /-- Start and length of each code's symbol. -/
  spans : List (Nat × Nat)
  zeroTerminated : Bool
  deriving DecidableEq, Repr

namespace SymTable

/-- The histogram slots in the order their symbols are stored: lengths 2 to 8, then 1. -/
def slots : List Nat := [1, 2, 3, 4, 5, 6, 7, 0]

/-- What the symbol loop has read so far. -/
structure Progress where
  symbols : Bytes
  spans : List (Nat × Nat)
  code : Nat
  pos : Nat
  deriving DecidableEq, Repr

def readSymbol (bytes : Bytes) (progress : Progress) (symbolLen : Nat) : Result Progress := do
  refuseIf (progress.code ≥ numCodes) (Fsst.decodeError "too many FSST symbols")
  let stop ← okOr (checkedAddWord progress.pos symbolLen) (Fsst.decodeError "symbol overflow")
  refuseIf (stop > bytes.length) (Fsst.decodeError "symbol bytes truncated")
  let start := progress.symbols.length
  refuseIf (2 ^ 32 ≤ start) (Fsst.decodeError "symbol table too large")
  let symbol ← slice bytes progress.pos stop
  return {
    symbols := progress.symbols ++ symbol
    spans := progress.spans.set progress.code (start, symbolLen)
    code := progress.code + 1
    pos := stop }

/-- Parse a serialized table; also returns the number of bytes it takes. -/
def parse (bytes : Bytes) : Result (SymTable × Nat) := do
  refuseIf (bytes.length < headerLen) (Fsst.decodeError "symbol table header too short")
  let versionHigh := leNat (field bytes 4 4)
  refuseIf (versionHigh ≠ version)
    (Fsst.decodeError s!"unexpected FSST version {hex 10 versionHigh}")
  let zeroTerminated : Bool := (bytes.getD 8 0).toNat % 2 = 1
  let lenHisto := field bytes 9 8
  -- code 0 is the empty string in zero-terminated mode, and is not stored
  let effective := fun slot =>
    let stored := (lenHisto.getD slot 0).toNat
    if zeroTerminated ∧ slot = 0 then stored - 1 else stored
  let lengths := slots.flatMap fun slot => List.replicate (effective slot) (slot + 1)
  let progress ← lengths.foldlM (readSymbol bytes)
    { symbols := []
      spans := List.replicate numCodes (0, 0)
      code := if zeroTerminated then 1 else 0
      pos := headerLen }
  return ({ symbols := progress.symbols, spans := progress.spans, zeroTerminated }, progress.pos)

/-- The symbol of `code`, empty when it is unused. -/
def symbol (table : SymTable) (code : UInt8) : Result Bytes := do
  let (start, len) ← index table.spans code.toNat
  slice table.symbols start (start + len)

/-- Decode a single compressed string. -/
def decode (table : SymTable) : Bytes → Result Bytes
  | [] => .ok []
  | byte :: rest =>
    if byte = esc then
      match rest with
      | [] => fail (Fsst.decodeError "FSST escape at end of input")
      | literal :: rest => do
        let out ← decode table rest
        return literal :: out
    else do
      let symbol ← table.symbol byte
      refuseIf symbol.isEmpty
        (Fsst.decodeError s!"FSST code {hex 4 byte.toNat} references unused symbol")
      let out ← decode table rest
      return symbol ++ out

end SymTable

end Rdwarfs.Source.Metadata
