import Rdwarfs.Guarantees.ExtractContainment
import Rdwarfs.Guarantees.GlobLanguage
import Rdwarfs.Guarantees.TreeAgreement

/-!
# What the include patterns select by

`OptionsView::matches` turns the path into a string first, and a path that is not UTF-8 into the
empty one. So the patterns judge the bytes of the path where these are UTF-8, and otherwise judge
an empty text in their place.
-/
namespace Rdwarfs.Guarantees.IncludeFilter

open Lib.Machine Lib.Pieces Source Source.Fs
open ExtractContainment GlobLanguage OpenedFilesystem TreeAgreement

section Patterns

variable {patterns : List Bytes} {text : Bytes}

/-- Some pattern matches the text, and none before it panics on it. -/
def Reached (patterns : List Bytes) (text : Bytes) : Prop :=
  ∃ before pattern after, patterns = before ++ pattern :: after ∧ Globs pattern text ∧
    ∀ earlier ∈ before, ¬ Crashes earlier text

theorem anyMatch_eq_true :
    ExtractOptions.anyMatch text patterns = .ok true ↔ Reached patterns text := by
  induction patterns with
  | nil => simp [ExtractOptions.anyMatch, Reached]
  | cons pattern rest ih =>
    rw [ExtractOptions.anyMatch]
    constructor
    · intro found
      obtain ⟨here, matched, onward⟩ := bind_eq_ok.mp found
      cases here with
      | true => exact ⟨[], pattern, rest, rfl, globMatch_eq_true.mp matched, by simp⟩
      | false =>
        obtain ⟨before, later, after, rfl, globs, calm⟩ := ih.mp onward
        refine ⟨pattern :: before, later, after, rfl, globs, ?_⟩
        rw [List.forall_mem_cons]
        refine ⟨fun crashes => ?_, calm⟩
        rw [globMatch_eq_panicked.mpr crashes] at matched
        cases matched
    · rintro ⟨before, later, after, split, globs, calm⟩
      cases before with
      | nil =>
        cases split
        rw [globMatch_eq_true.mpr globs]
        rfl
      | cons first before =>
        cases split
        rw [List.forall_mem_cons] at calm
        rcases @globMatch_returned pattern text with ⟨found, returned⟩ | stuck
        · rw [returned, ok_bind]
          cases found with
          | true => rfl
          | false => exact ih.mpr ⟨before, later, after, rfl, globs, calm.2⟩
        · exact absurd (globMatch_eq_panicked.mp stuck) calm.1

theorem Reached.some_matches (reached : Reached patterns text) :
    ∃ pattern ∈ patterns, Globs pattern text := by
  obtain ⟨before, pattern, after, rfl, globs, _⟩ := reached
  exact ⟨pattern, by simp, globs⟩

/-- There is no byte in an empty text for an open class. -/
theorem not_crashes_nil (pattern : Bytes) : ¬ Crashes pattern [] := by
  rintro ⟨tokens, body, _, front, _, empty, _, c, back, rfl, _⟩
  simp at empty

theorem reached_nil_iff : Reached patterns [] ↔ ∃ pattern ∈ patterns, Globs pattern [] := by
  refine ⟨Reached.some_matches, ?_⟩
  rintro ⟨pattern, member, globs⟩
  obtain ⟨before, after, split⟩ := List.append_of_mem member
  exact ⟨before, pattern, after, split, globs, fun earlier _ => not_crashes_nil earlier⟩

/-- A star alone matches no text with a slash. -/
theorem not_globs_star (crosses : slash ∈ text) : ¬ Globs [0x2A] text := by
  rintro ⟨tokens, spelled, divides⟩
  cases spelled with
  | star later =>
    cases later
    obtain ⟨piece, rest, rfl, reads, onward⟩ := divides_cons.mp divides
    rw [divides_nil.mp onward, List.append_nil] at crosses
    exact reads crosses
  | byte notStar => exact notStar rfl

end Patterns

section Entries

variable {fs : Filesystem} {depth : Nat} {walked : List WalkEntry}

theorem root_of_walk (done : fs.walk depth = some (.ok walked)) : fs.kind 0 = .ok .directory := by
  rw [Filesystem.walk] at done
  cases known : fs.kind 0 with
  | error failure => simp [known] at done
  | ok kind =>
    simp only [known] at done
    cases depth with
    | zero => cases done
    | succ depth =>
      rw [Filesystem.walkInner] at done
      cases read : fs.readDir 0 with
      | error failure => simp [read] at done
      | ok entries => rw [← known, (readDir_eq_ok read).1]

/-- Only the root, a directory, has an empty path. -/
theorem path_of_walk (done : fs.walk depth = some (.ok walked)) :
    ∀ entry ∈ walked, entry.kind ≠ .directory → entry.path ≠ [] := by
  have property := @walk_preserves fs (fun _ _ => True)
    (fun entry => entry.kind ≠ .directory → entry.path ≠ []) ?_ depth walked trivial ?_ done
  · exact property
  · intro path inode entries _ _ entry _
    exact ⟨fun _ => by simp [joinPath], trivial⟩
  · intro kind known other
    rw [root_of_walk done, Except.ok.injEq] at known
    exact absurd known.symm other

end Entries

/-- The patterns judge the path itself: where it is UTF-8 no pattern panics before one that
matches, and where it is not they say of an empty text what they say of the path. -/
def Judged (patterns : List Bytes) (path : Bytes) : Prop :=
  if Lib.Utf8.wellFormed path then
    (∃ pattern ∈ patterns, Globs pattern path) → Reached patterns path
  else (∃ pattern ∈ patterns, Globs pattern []) ↔ ∃ pattern ∈ patterns, Globs pattern path

section Filter

variable {fs : Filesystem} {depth : Nat} {walked : List WalkEntry} {entry : WalkEntry}
  {options : ExtractOptions}

theorem takes_eq_true (path : entry.path ≠ []) (other : entry.kind ≠ .directory)
    (given : options.includePatterns ≠ []) :
    options.takes entry = .ok true ↔
      Reached options.includePatterns
        (if Lib.Utf8.wellFormed (stripSlash entry.path) then stripSlash entry.path else []) := by
  simp only [ExtractOptions.takes, if_neg given, if_neg path, if_neg other, anyMatch_eq_true]

/-- An entry is taken exactly if some pattern matches its path, and none below a directory by stars
alone, as long as the patterns judge the path. -/
theorem include_filter_iff (done : fs.walk depth = some (.ok walked)) (member : entry ∈ walked)
    (other : entry.kind ≠ .directory) (given : options.includePatterns ≠ []) :
    ((options.takes entry = .ok true ↔
        ∃ pattern ∈ options.includePatterns, Globs pattern (stripSlash entry.path)) ∧
      ((∀ pattern ∈ options.includePatterns, pattern = [0x2A]) → slash ∈ stripSlash entry.path →
        options.takes entry ≠ .ok true)) ↔
      Judged options.includePatterns (stripSlash entry.path) := by
  have taken := takes_eq_true (path_of_walk done entry member other) other given
  have stars : (options.takes entry = .ok true ↔
        ∃ pattern ∈ options.includePatterns, Globs pattern (stripSlash entry.path)) →
      (∀ pattern ∈ options.includePatterns, pattern = [0x2A]) → slash ∈ stripSlash entry.path →
        options.takes entry ≠ .ok true := by
    intro judged all crosses took
    obtain ⟨pattern, listed, globs⟩ := judged.mp took
    rw [all pattern listed] at globs
    exact not_globs_star crosses globs
  rw [and_iff_left_of_imp stars, taken, Judged]
  by_cases text : Lib.Utf8.wellFormed (stripSlash entry.path) = true
  · rw [if_pos text, if_pos text]
    exact ⟨fun same => same.mpr, fun reaches => ⟨Reached.some_matches, reaches⟩⟩
  · rw [if_neg text, if_neg text, reached_nil_iff]

end Filter

section Inputs

/-- A root with one file, whose name is the byte 0xFF. -/
def oddTables : Tables :=
  { rootTables [0xFF] 1 [0o040755, 0o100644] with
    chunks := [⟨0, 0, 2⟩, ⟨0, 2, 3⟩], chunkTable := [0, 2], totalFsSize := 5 }

def odd : Filesystem := filesystem climbingImage oddTables [2, 5] ⟨0, 2, 1, 2, 2, 2, 2⟩

theorem odd_made : Filesystem.ofTables climbingImage oddTables = .ok odd :=
  ofTables_unpacked rfl rfl (by decide) (by decide)

def oddEntry : WalkEntry := ⟨[47, 0xFF], 1, .regular⟩

theorem walk_odd : odd.walk 1 = some (.ok [⟨[], 0, .directory⟩, oddEntry]) := by decide

theorem odd_not_text : ¬ Lib.Utf8.wellFormed [0xFF] = true := by
  simp [Lib.Utf8.wellFormed_cons, Lib.Utf8.tail, Lib.Utf8.width]

/-- The pattern `?`. -/
def anyByte : ExtractOptions := ⟨false, true, [[0x3F]]⟩

theorem not_globs_any : ¬ Globs [0x3F] [] := by
  rintro ⟨tokens, spelled, divides⟩
  cases spelled with
  | any later => exact absurd (divides_cons.mp divides) (by simp [Token.Reads])
  | byte _ notAny => exact absurd rfl notAny

theorem anyByte_globs : Globs [0x3F] [0xFF] :=
  ⟨[.any], .any .nil, divides_cons.mpr ⟨[0xFF], [], rfl, ⟨0xFF, rfl, by decide⟩, .nil⟩⟩

/-- One byte is matched by `?`, and the file whose name it is is left out. -/
theorem odd_name_left_out :
    Filesystem.ofTables climbingImage oddTables = .ok odd ∧
      ¬ ∀ (depth : Nat) (walked : List WalkEntry) (entry : WalkEntry) (options : ExtractOptions),
        odd.walk depth = some (.ok walked) → entry ∈ walked → entry.kind ≠ .directory →
        options.includePatterns ≠ [] →
        (options.takes entry = .ok true ↔
          ∃ pattern ∈ options.includePatterns, Globs pattern (stripSlash entry.path)) := by
  refine ⟨odd_made, fun claimed => ?_⟩
  have same := claimed 1 _ oddEntry anyByte walk_odd (by simp) (by decide) (by decide)
  have took := same.mpr ⟨[0x3F], by simp [anyByte], anyByte_globs⟩
  rw [takes_eq_true (by decide) (by decide) (by decide)] at took
  have stripped : stripSlash oddEntry.path = [0xFF] := by decide
  rw [stripped, if_neg odd_not_text, reached_nil_iff] at took
  obtain ⟨pattern, listed, globs⟩ := took
  obtain rfl := List.mem_singleton.mp listed
  exact not_globs_any globs

/-- The pattern `*` matches the empty text and the byte alike. -/
theorem include_filter_star :
    (ExtractOptions.takes ⟨false, true, [[0x2A]]⟩ oddEntry = .ok true ↔
      ∃ pattern ∈ [[(0x2A : UInt8)]], Globs pattern [0xFF]) ∧
    ((∀ pattern ∈ [[(0x2A : UInt8)]], pattern = [0x2A]) → slash ∈ [(0xFF : UInt8)] →
      ExtractOptions.takes ⟨false, true, [[0x2A]]⟩ oddEntry ≠ .ok true) := by
  refine (@include_filter_iff odd 1 _ oddEntry ⟨false, true, [[0x2A]]⟩ walk_odd (by simp) (by decide)
    (by decide)).mpr ?_
  have starred : ∀ text : Bytes, slash ∉ text → Globs [0x2A] text := fun text inside =>
    ⟨[.star], .star .nil, divides_cons.mpr ⟨text, [], (List.append_nil text).symm, inside, .nil⟩⟩
  have stripped : stripSlash oddEntry.path = [0xFF] := by decide
  rw [stripped, Judged, if_neg odd_not_text]
  exact iff_of_true ⟨_, List.mem_singleton_self _, starred _ (by decide)⟩
    ⟨_, List.mem_singleton_self _, starred _ (by decide)⟩

end Inputs

end Rdwarfs.Guarantees.IncludeFilter
