import Rdwarfs.Source.Format.Header
import Rdwarfs.Source.Format.ImageSource

/-!
# Locating the first section

format/detect.rs:19-170: one scanner over a contiguous slice, one over overlapping
windows read from a source. Both remember the first unsupported version they meet.
`build` is the build's treatment of the one plain addition that hostile headers
can overflow.
-/
namespace Rdwarfs.Source.Format

open Lib.Machine

def scanChunk : Nat := 64 * 1024

/-- `slice.windows(MAGIC.len()).position(|window| window == MAGIC)` -/
def findMagic : Bytes → Option Nat
  | [] => none
  | byte :: rest =>
    if (byte :: rest).take magicLen = magic then some 0 else (findMagic rest).map (· + 1)

theorem findMagic_eq_some {bytes : Bytes} {at_ : Nat} (found : findMagic bytes = some at_) :
    (bytes.drop at_).take magicLen = magic ∧
      ∀ i, i < at_ → (bytes.drop i).take magicLen ≠ magic := by
  induction bytes generalizing at_ with
  | nil => cases found
  | cons byte rest ih =>
    rw [findMagic] at found
    split at found
    · rename_i here
      cases found
      exact ⟨here, fun i lt => absurd lt (Nat.not_lt_zero i)⟩
    · rename_i absent
      cases tail : findMagic rest with
      | none => simp [tail] at found
      | some k =>
        simp only [tail, Option.map_some, Option.some.injEq] at found
        subst found
        obtain ⟨isMagic, before⟩ := ih tail
        refine ⟨by simpa using isMagic, fun i lt => ?_⟩
        cases i with
        | zero => exact absent
        | succ i => simpa using before i (by omega)

theorem findMagic_eq_none {bytes : Bytes} (missing : findMagic bytes = none) (i : Nat) :
    (bytes.drop i).take magicLen ≠ magic := by
  induction bytes generalizing i with
  | nil => simp [magic]
  | cons byte rest ih =>
    rw [findMagic] at missing
    split at missing
    · cases missing
    · rename_i absent
      simp only [Option.map_eq_none_iff] at missing
      cases i with
      | zero => exact absent
      | succ i => simpa using ih missing i

/-- A match lies wholly inside the bytes searched. -/
theorem findMagic_bound {bytes : Bytes} {at_ : Nat} (found : findMagic bytes = some at_) :
    at_ + magicLen ≤ bytes.length := by
  have len := congrArg List.length (findMagic_eq_some found).1
  simp only [List.length_take, List.length_drop, magicLen, magic, List.length_cons,
    List.length_nil] at len ⊢
  omega

/-- `version_error.get_or_insert(err)` on an unsupported version; every other header
error is dropped. -/
def rememberVersion (versionError : Option Error) (err : Error) : Option Error :=
  match err with
  | .unsupportedVersion .. => some (versionError.getD err)
  | _ => versionError

/-- `follows_a_section_boundary`: every addition is checked. -/
def followsASectionBoundary (image : Bytes) (at_ : Nat) (header : SectionHeader) : Result Bool :=
  match checkedAddWord at_ header.sectionLen with
  | none => .ok false
  | some next =>
    if next = image.length then .ok true
    else
      match checkedAddWord next magicLen with
      | none => .ok false
      | some magicEnd =>
        if magicEnd > image.length then .ok false
        else do
          let found ← slice image next magicEnd
          .ok (found == magic)

/-- The loop of `detect_base_offset` from `probe` on. -/
def detectFrom (image : Bytes) (probe : Nat) (versionError : Option Error) : Result Nat :=
  let lastHeaderStart := image.length - headerLen
  if probe ≤ lastHeaderStart then
    match findMagic (image.drop probe) with
    | none => fail (versionError.getD .notADwarfsImage)
    | some rel =>
      let candidate := probe + rel
      if candidate > lastHeaderStart then fail (versionError.getD .notADwarfsImage)
      else do
        let bytes ← slice image candidate (candidate + headerLen)
        match SectionHeader.parse bytes candidate with
        | .ok header =>
          if ← followsASectionBoundary image candidate header then .ok candidate
          else detectFrom image (candidate + 1) versionError
        | .error (.err err) =>
          detectFrom image (candidate + 1) (rememberVersion versionError err)
        | .error .panic => panicked
  else fail (versionError.getD .notADwarfsImage)
termination_by image.length + 1 - probe

def detectBaseOffset (image : Bytes) : Result Nat :=
  if image.length < headerLen then fail .notADwarfsImage
  else detectFrom image 0 none

def readHeader (source : ImageSource) (at_ : Nat) : Result SectionHeader := do
  let buf ← source.readExactAt headerLen at_
  SectionHeader.parse buf at_

/-- `source_follows_a_section_boundary`: the addition of the magic's length is plain. -/
def sourceFollowsASectionBoundary (build : Build) (source : ImageSource) (at_ : Nat)
    (header : SectionHeader) : Result Bool :=
  match checkedAddWord at_ header.sectionLen with
  | none => .ok false
  | some next =>
    if next = source.len then .ok true
    else do
      let magicEnd ← (Arith.machine build).add next magicLen
      if magicEnd > source.len then .ok false
      else
        let found ← source.readExactAt magicLen next
        .ok (found == magic)

/-- The inner loop: every magic of one window from `at_` on. Returns the accepted
candidate, if any, and the version error remembered so far. -/
def scanWindow (build : Build) (source : ImageSource) (window : Bytes) (probe at_ : Nat)
    (versionError : Option Error) : Result (Option Nat × Option Error) :=
  match _found : findMagic (window.drop at_) with
  | none => .ok (none, versionError)
  | some rel =>
    let candidate := probe + (at_ + rel)
    if candidate > source.len - headerLen then fail (versionError.getD .notADwarfsImage)
    else
      match readHeader source candidate with
      | .ok header => do
        if ← sourceFollowsASectionBoundary build source candidate header then
          .ok (some candidate, versionError)
        else scanWindow build source window probe (at_ + rel + 1) versionError
      | .error (.err err) =>
        scanWindow build source window probe (at_ + rel + 1) (rememberVersion versionError err)
      | .error .panic => panicked
termination_by window.length - at_
decreasing_by
  all_goals
    have bound := findMagic_bound _found
    simp only [List.length_drop, magicLen] at bound
    omega

/-- The outer loop: windows of `scanChunk` bytes, overlapping by one less than a
magic so that none straddles a boundary unseen. -/
def detectWindows (build : Build) (source : ImageSource) (probe : Nat)
    (versionError : Option Error) : Result Nat :=
  if probe ≤ source.len - headerLen then do
    let want := min scanChunk (source.len - probe)
    let window ← source.readExactAt want probe
    match ← scanWindow build source window probe 0 versionError with
    | (some candidate, _) => .ok candidate
    | (none, versionError) =>
      if want < scanChunk then fail (versionError.getD .notADwarfsImage)
      -- at most a window past `len`, which a file keeps far below the word limit
      else detectWindows build source (probe + (scanChunk - (magicLen - 1))) versionError
  else fail (versionError.getD .notADwarfsImage)
termination_by source.len + 1 - probe
decreasing_by
  simp only [scanChunk, magicLen, headerLen] at *
  omega

def detectBaseOffsetIn (build : Build) (source : ImageSource) : Result Nat :=
  match source.asSlice with
  | some bytes => detectBaseOffset bytes
  | none =>
    if source.len < headerLen then fail .notADwarfsImage
    else detectWindows build source 0 none

end Rdwarfs.Source.Format
