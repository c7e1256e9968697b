import Rdwarfs.Guarantees.ExtractContainment
import Rdwarfs.Guarantees.GlobLanguage
import Rdwarfs.Source.Fs.ExtractAll

/-!
# What is selected, and where it goes

The matcher behind the include patterns returns on every text as long as each class of the
pattern is closed. A path of plain names is extracted to those names below the destination,
so no two paths go to one place.
-/
namespace Rdwarfs.Guarantees.Selections

open Lib.Machine Lib.UnixPath Source Source.Fs Extraction ExtractContainment

section Patterns

variable {options : ExtractOptions}

/-- Every class of a pattern has its closing bracket. -/
def Closed (pattern : Bytes) : Prop :=
  ∀ front back, pattern = front ++ 0x5B :: back → 0x5D ∈ back

/-- The matcher has no error of its own, and a closed pattern no panic either. -/
theorem globMatch_returns (pattern text : Bytes) :
    (∀ reason, globMatch pattern text ≠ fail reason) ∧
      (Closed pattern → globMatch pattern text ≠ panicked) := by
  constructor
  · intro reason failed
    rcases @GlobLanguage.globMatch_returned pattern text with ⟨found, returned⟩ | stuck
    · rw [returned] at failed
      cases failed
    · rw [stuck] at failed
      cases failed
  · intro closed stuck
    obtain ⟨_, body, ⟨front, -, same, missing⟩, -⟩ := GlobLanguage.globMatch_eq_panicked.mp stuck
    exact missing (closed front body same)

theorem anyMatch_returns (text : Bytes) (patterns : List Bytes) :
    (∀ reason, ExtractOptions.anyMatch text patterns ≠ fail reason) ∧
      ((∀ pattern ∈ patterns, Closed pattern) → ExtractOptions.anyMatch text patterns ≠ panicked) := by
  induction patterns with
  | nil => simp [ExtractOptions.anyMatch]
  | cons pattern rest ih =>
    have first := globMatch_returns pattern text
    rw [ExtractOptions.anyMatch]
    cases matched : globMatch pattern text with
    | error failure =>
      rw [matched] at first
      refine ⟨first.1, fun closed => first.2 (closed pattern (by simp))⟩
    | ok found =>
      rw [ok_bind]
      split
      · simp
      · exact ⟨ih.1, fun closed => ih.2 fun other member => closed other (by simp [member])⟩

theorem takes_returns (options : ExtractOptions) (entry : WalkEntry) :
    (∀ reason, options.takes entry ≠ fail reason) ∧
      ((∀ pattern ∈ options.includePatterns, Closed pattern) → options.takes entry ≠ panicked) := by
  unfold ExtractOptions.takes
  split
  · simp
  · split
    · simp
    · dsimp only
      split
      · simp
      · exact anyMatch_returns _ _

/-- The entries that the patterns take. -/
def taken (options : ExtractOptions) (entries : List WalkEntry) : List WalkEntry :=
  entries.filter fun entry => options.takes entry = .ok true

/-- `select` is a filter, unless a match panics. -/
theorem select_eq (options : ExtractOptions) (entries : List WalkEntry) :
    options.select entries =
      if ∀ entry ∈ entries, options.takes entry ≠ panicked then .ok (taken options entries)
      else panicked := by
  induction entries with
  | nil => simp [ExtractOptions.select, taken]
  | cons entry rest ih =>
    rw [ExtractOptions.select, ih]
    cases matched : options.takes entry with
    | error failure =>
      cases failure with
      | err reason => exact absurd matched ((takes_returns options entry).1 reason)
      | panic => simp [matched]
    | ok found =>
      rw [ok_bind]
      by_cases calm : ∀ other ∈ rest, options.takes other ≠ panicked
      · have all : ∀ other ∈ entry :: rest, options.takes other ≠ panicked :=
          List.forall_mem_cons.mpr ⟨by simp [matched], calm⟩
        rw [if_pos calm, if_pos all, ok_bind]
        cases found <;> simp [taken, matched]
      · have some_ : ¬ ∀ other ∈ entry :: rest, options.takes other ≠ panicked :=
          fun all => calm fun other member => all other (List.mem_cons_of_mem _ member)
        rw [if_neg calm, if_neg some_, error_bind]

end Patterns

section Targets

/-- A name that is one component and nothing else. -/
def PlainName (name : Bytes) : Prop :=
  name ≠ [] ∧ slash ∉ name ∧ name ≠ [dot] ∧ name ≠ [dot, dot]

/-- A path made of plain names. -/
def Plain (path : Bytes) : Prop := ∃ names, path = pathOf names ∧ ∀ name ∈ names, PlainName name

theorem splitOn_plainName {name : Bytes} (plain : PlainName name) :
    name.splitOn separator = [name] :=
  List.splitOn_eq_singleton plain.2.1

theorem body_plainName {name : Bytes} (plain : PlainName name) : body name = [.normal name] := by
  have piece := splitOn_plainName plain
  obtain ⟨nonempty, _, notDot, notDots⟩ := plain
  simp [body, piece, component, nonempty, notDot, notDots]

theorem body_pathOf {names : List Bytes} (plain : ∀ name ∈ names, PlainName name) :
    body (stripSlash (pathOf names)) = names.map .normal := by
  rw [body_stripSlash]
  induction names with
  | nil => rfl
  | cons name rest ih =>
    rw [List.flatMap_cons, body_plainName (plain name (by simp)), ih fun other member =>
      plain other (by simp [member]), List.map_cons, List.singleton_append]

theorem not_rooted {names : List Bytes} (plain : ∀ name ∈ names, PlainName name) :
    ¬ Rooted names := by
  cases names with
  | nil => exact id
  | cons name rest =>
    obtain ⟨nonempty, noSlash, _⟩ := plain name (by simp)
    rintro (starts | ⟨empty, _⟩)
    · exact noSlash (List.mem_of_mem_head? starts)
    · exact nonempty empty

/-- A plain path is extracted to its names below the destination. -/
theorem components_resolvePath (dest : Path) {names : List Bytes}
    (plain : ∀ name ∈ names, PlainName name) :
    components (resolvePath dest (pathOf names)) = components dest ++ names.map .normal := by
  cases names with
  | nil => simp [resolvePath]
  | cons name rest =>
    have relative : ¬ Absolute (stripSlash (pathOf (name :: rest))) := fun absolute =>
      not_rooted plain ((absolute_stripSlash_iff _).mp absolute)
    rw [resolvePath, if_neg (by simp), ← body_pathOf plain]
    by_cases empty : dest = []
    · subst empty
      have first := plain name (by simp)
      have pieces : ((stripSlash (pathOf (name :: rest))).splitOn separator).head? = some name := by
        rw [pathOf_cons, stripSlash, if_pos rfl]
        cases rest with
        | nil => simp [splitOn_plainName first]
        | cons next rest =>
          rw [pathOf_cons, show slash = separator from rfl, List.splitOn_append_cons_self,
            splitOn_plainName first]
          rfl
      have notDot : ((stripSlash (pathOf (name :: rest))).splitOn separator).head? ≠ some [dot] := by
        rw [pieces, Ne, Option.some.injEq]
        exact first.2.2.1
      rw [show push [] (stripSlash (pathOf (name :: rest))) = stripSlash (pathOf (name :: rest)) by
        simp [push], components, lead, if_neg relative, if_neg notDot]
      rfl
    · exact components_push relative empty

theorem targetOf_injective (dest : Path) {one other : WalkEntry} (first : Plain one.path)
    (second : Plain other.path) (same : targetOf dest one = targetOf dest other) :
    one.path = other.path := by
  obtain ⟨names, path, plain⟩ := first
  obtain ⟨names', path', plain'⟩ := second
  rw [targetOf, targetOf, path, path', components_resolvePath dest plain,
    components_resolvePath dest plain', List.append_cancel_left_eq] at same
  have equal : names = names' :=
    (List.map_injective_iff.mpr fun _ _ eq => Component.normal.inj eq) same
  rw [path, path', equal]

theorem targetOf_inside (dest : Path) {entry : WalkEntry} (plain : Plain entry.path) :
    components dest <+: targetOf dest entry := by
  obtain ⟨names, path, plain⟩ := plain
  rw [targetOf, path, components_resolvePath dest plain]
  exact List.prefix_append ..

end Targets

end Rdwarfs.Guarantees.Selections
