import Rdwarfs.Source.Format.Image

/-!
# How the binaries open an image

bin/dwarfs.rs:155-166, bin/dwarfsck.rs:771-791, bin/dwarfsextract.rs:238-258 and
format/image.rs:91-105. A mount reads its file positionally; the other two open it as `Image::open`
does, and positionally once a window is asked for. Errors of the operating system when the file is
opened or mapped are not modelled.
-/
namespace Rdwarfs.Source

open Lib.Machine Format

/-- One more digit, where the number still fits. -/
def pushDigit (value : Option Nat) (c : Char) : Option Nat := do
  let value ← value
  if c.isDigit then
    let scaled ← (Arith.machine .checked).checkedMul value 10
    checkedAddWord scaled (c.toNat - '0'.toNat)
  else none

/-- `str::parse::<u64>`, on the characters of the string. -/
def parseU64 (text : List Char) : Option Nat :=
  let digits := if text.head? = some '+' then text.drop 1 else text
  if digits = [] then none else digits.foldl pushDigit (some 0)

/-- Why a command refuses to go on. -/
inductive Refusal where
  | usage (message : String)
  | failed (failure : Failure Error)

def orRefuse {α : Type} (result : Result α) : Except Refusal α := result.mapError .failed

/-- `Image::open`: the file is mapped where the `mmap` feature is on. -/
def Format.Image.openPath (build : Build) (mmap : Bool) (file : Bytes) : Result Image :=
  Image.fromSource build (if mmap then .ofVec file else .ofFile file)

namespace Dwarfs

/-- Where an image begins inside the file holding it. -/
inductive Offset where
  | start
  | detect
  | position (offset : Nat)
  deriving DecidableEq, Repr

/-- `open_image` -/
def openImage (build : Build) (file : Bytes) : Offset → Result Image
  | .start | .detect => Image.fromSource build (.ofFile file)
  | .position offset => Image.fromWindow build (.ofFile file) offset (file.length - offset)

end Dwarfs

namespace Dwarfsck

/-- `--image-offset`: `auto`, or a byte position. -/
def imageOffset (offset : String) : Except Refusal (Option Nat) :=
  if offset = "auto" then .ok none
  else
    match parseU64 offset.toList with
    | some position => .ok (some position)
    | none => .error (.usage s!"--image-offset must be `auto` or a byte offset: {offset}")

/-- `open_image`, also that of bin/dwarfsextract.rs. -/
def openImage (build : Build) (mmap : Bool) (file : Bytes) (offset : String) (size : Option Nat) :
    Except Refusal Image := do
  let offset ← imageOffset offset
  if offset = none ∧ size = none then orRefuse (Image.openPath build mmap file)
  else
    let start := offset.getD 0
    let len := size.getD (file.length - start)
    orRefuse (Image.fromWindow build (.ofFile file) start len)

end Dwarfsck

end Rdwarfs.Source
