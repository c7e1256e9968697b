import Rdwarfs.Source.FuseSession
import Rdwarfs.Source.Opening
import Mathlib.Data.List.DropRight

/-!
# The `dwarfs` command

bin/dwarfs.rs:111-147 and 170-191: the `-o` options of a mount, and what they come to. Strings
are lists of characters; a `usize` is a 64-bit word. Parsing of the command line by clap and the
mount that fuser makes are not modelled; `open_image` is in Opening.lean.
-/
namespace Rdwarfs.Source.Dwarfs

open Lib.Machine Format Fs

/-- Unicode `White_Space`, which `str::trim` drops at both ends. -/
def whiteSpace (c : Char) : Bool :=
  let n := c.toNat
  (0x09 ≤ n ∧ n ≤ 0x0D) ∨ n = 0x20 ∨ n = 0x85 ∨ n = 0xA0 ∨ n = 0x1680 ∨ (0x2000 ≤ n ∧ n ≤ 0x200A) ∨
    n = 0x2028 ∨ n = 0x2029 ∨ n = 0x202F ∨ n = 0x205F ∨ n = 0x3000

def trim (text : List Char) : List Char := (text.dropWhile whiteSpace).rdropWhile whiteSpace

/-- The match on the suffix, its trailing `b`s dropped. -/
def scaleOf : List Char → Option Nat
  | [] => some 1
  | ['k'] => some (1 <<< 10)
  | ['m'] => some (1 <<< 20)
  | ['g'] => some (1 <<< 30)
  | ['t'] => some (1 <<< 40)
  | _ => none

def parseSize (value : List Char) : Except String Nat := do
  let trimmed := trim value
  let digits := trimmed.rdropWhile Char.isAlpha
  let suffix := (trimmed.drop digits.length).map Char.toLower
  let unit := suffix.rdropWhile (· = 'b')
  let text := String.ofList value
  match scaleOf unit with
  | none => .error s!"unknown size suffix `{String.ofList unit}` in `{text}`"
  | some scale =>
    match parseU64 digits with
    | none => .error s!"`{text}` is not a byte size"
    | some number =>
      match (Arith.machine .checked).checkedMul number scale with
      | none => .error s!"`{text}` overflows a byte size"
      | some bytes => .ok bytes

def parseOffset (value : List Char) : Except String Offset :=
  if value = "auto".toList then .ok .detect
  else
    match parseU64 value with
    | some position => .ok (.position position)
    | none => .error s!"offset must be `auto` or a byte offset: {String.ofList value}"

/-- `str::strip_prefix` -/
def stripPrefix (front : String) (text : List Char) : Option (List Char) :=
  front.toList.isPrefixOf? text

structure SplitOptions where
  cache : Option Nat
  offset : Offset
  rest : List (List Char)
  deriving DecidableEq, Repr

/-- The body of the inner loop of `split_options`. -/
def splitOption (state : SplitOptions) (opt : List Char) : Except String SplitOptions :=
  match stripPrefix "cachesize=" opt with
  | some value => do
    let bytes ← parseSize value
    return { state with cache := some bytes }
  | none =>
    match stripPrefix "offset=" opt with
    | some value => do
      let offset ← parseOffset value
      return { state with offset }
    | none => .ok (if opt = [] then state else { state with rest := state.rest ++ [opt] })

def splitOptions (options : List (List Char)) : Except String SplitOptions :=
  options.foldlM (fun state raw => (raw.splitOn ',').foldlM splitOption state)
    { cache := none, offset := .start, rest := [] }

end Rdwarfs.Source.Dwarfs
