import Rdwarfs.Lib.Utf8
import Rdwarfs.Source.Fs.Extract

/-!
# Which entries an extraction takes

fs/extract.rs:25-148, `OptionsView::matches` and the glob matcher behind it. A class without its
closing bracket takes the rest of the pattern, and what follows the bracket is then out of
range. How deep the matcher recurses is not modelled.
-/
namespace Rdwarfs.Source.Fs

open Lib.Machine

structure ExtractOptions where
  continueOnError : Bool
  hardlinkShared : Bool
  /-- The bytes of each pattern. -/
  includePatterns : List Bytes
  deriving DecidableEq, Repr

/-- Whether a class holds `c`: single bytes and, with a `-` in the middle, ranges. -/
def classMatches (c : UInt8) : Bytes → Bool
  | low :: dash :: high :: rest =>
    if dash = 0x2D then (low ≤ c && c ≤ high) || classMatches c rest
    else c = low || classMatches c (dash :: high :: rest)
  | byte :: rest => c = byte || classMatches c rest
  | [] => false

/-- The loop of `*`: `go` on every suffix until a slash would be crossed. -/
def matchStar (go : Bytes → Result Bool) : Bytes → Result Bool
  | [] => go []
  | c :: text => do
    let found ← go (c :: text)
    if found then return true
    else if c = slash then return false
    else matchStar go text

/-- The class at the start of a pattern whose `[` is gone, and what comes after it. -/
def splitClass (pattern : Bytes) : Bytes × Bytes :=
  (pattern.takeWhile (· ≠ 0x5D), pattern.dropWhile (· ≠ 0x5D))

theorem splitClass_length (pattern : Bytes) : (splitClass pattern).2.length ≤ pattern.length :=
  (List.dropWhile_suffix _).length_le

/-- `glob_match` -/
def globMatch (pattern text : Bytes) : Result Bool :=
  match pattern with
  | [] => .ok text.isEmpty
  | p :: pattern =>
    if p = 0x2A then matchStar (globMatch pattern) text
    else
      match text with
      | [] => .ok false
      | c :: text =>
        if p = 0x3F then
          if c = slash then .ok false else globMatch pattern text
        else if p = 0x5B then
          if classMatches c (splitClass pattern).1 then
            -- `&p[end + 1..]`
            match _after : (splitClass pattern).2 with
            | [] => panicked
            | _ :: behind => globMatch behind text
          else .ok false
        else if c = p then globMatch pattern text
        else .ok false
termination_by pattern.length
decreasing_by
  all_goals simp_wf
  have le := splitClass_length pattern
  rw [_after, List.length_cons] at le
  omega

namespace ExtractOptions

variable (options : ExtractOptions)

/-- `patterns.iter().any(..)` -/
def anyMatch (text : Bytes) : List Bytes → Result Bool
  | [] => .ok false
  | pattern :: rest => do
    let found ← globMatch pattern text
    if found then return true else anyMatch text rest

/-- `OptionsView::matches` -/
def takes (entry : WalkEntry) : Result Bool :=
  if options.includePatterns = [] then .ok true
  else if entry.path = [] then .ok true
  else
    let trimmed := stripSlash entry.path
    let text := if Lib.Utf8.wellFormed trimmed then trimmed else []
    if entry.kind = .directory then .ok true
    else anyMatch text options.includePatterns

def select : List WalkEntry → Result (List WalkEntry)
  | [] => .ok []
  | entry :: rest => do
    let taken ← options.takes entry
    let others ← select rest
    return if taken then entry :: others else others

end ExtractOptions

end Rdwarfs.Source.Fs
