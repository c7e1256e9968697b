import Mathlib.Tactic.Common
import Mathlib.Data.List.Basic

/-!
# Paths of bytes

What the standard library does with a path on Unix: splitting it into components,
joining two of them, and the lexical question whether one lies inside another.
Nothing here looks at a file system, so links are not followed.
-/
namespace Rdwarfs.Lib.UnixPath

abbrev Path := List UInt8

def separator : UInt8 := 0x2F

def dot : UInt8 := 0x2E

inductive Component where
  | rootDir
  | curDir
  | parentDir
  | normal (name : List UInt8)
  deriving DecidableEq, Repr

abbrev Absolute (path : Path) : Prop := path.head? = some separator

/-- What a piece between two separators stands for; empty and `.` pieces for nothing. -/
def component (piece : List UInt8) : Option Component :=
  if piece = [] ∨ piece = [dot] then none
  else if piece = [dot, dot] then some .parentDir
  else some (.normal piece)

/-- The components below the start of the path. -/
def body (path : Path) : List Component := (path.splitOn separator).filterMap component

/-- A leading `.` is a component of its own in a relative path. -/
def lead (path : Path) : List Component :=
  if Absolute path then [.rootDir]
  else if (path.splitOn separator).head? = some [dot] then [.curDir]
  else []

def components (path : Path) : List Component := lead path ++ body path

/-- `PathBuf::push`: an absolute argument replaces the whole path. -/
def push (base arg : Path) : Path :=
  if Absolute arg then arg
  else
    match base.getLast? with
    | none => arg
    | some last => if last = separator then base ++ arg else base ++ separator :: arg

/-- Followed from `depth` directories down, the components never climb above the start. -/
def stays : Nat → List Component → Bool
  | _, [] => true
  | _, .rootDir :: _ => false
  | depth, .curDir :: rest => stays depth rest
  | 0, .parentDir :: _ => false
  | depth + 1, .parentDir :: rest => stays depth rest
  | depth, .normal _ :: rest => stays (depth + 1) rest

/-- `path` starts with the components of `base`, and the rest stays below it. -/
def Inside (base path : Path) : Prop :=
  components base <+: components path ∧
    stays 0 ((components path).drop (components base).length) = true

instance (base path : Path) : Decidable (Inside base path) :=
  inferInstanceAs (Decidable (_ ∧ _))

@[simp] theorem body_nil : body [] = [] := rfl

/-- A separator ends one body and starts the next. -/
theorem body_append_separator (left right : Path) :
    body (left ++ separator :: right) = body left ++ body right := by
  simp [body, List.splitOn_append_cons_self]

theorem absolute_append {left : Path} (right : Path) (nonempty : left ≠ []) :
    Absolute (left ++ right) ↔ Absolute left := by
  rw [Absolute, List.head?_append_of_ne_nil _ nonempty]

theorem lead_append_separator {left : Path} (right : Path) (nonempty : left ≠ []) :
    lead (left ++ separator :: right) = lead left := by
  have pieces : left.splitOn separator ≠ [] := List.splitOn_ne_nil separator left
  simp only [lead, absolute_append _ nonempty, List.splitOn_append_cons_self,
    List.head?_append_of_ne_nil _ pieces]

theorem push_of_absolute {base arg : Path} (absolute : Absolute arg) : push base arg = arg :=
  if_pos absolute

/-- Pushing a relative path appends its components. -/
theorem components_push {base arg : Path} (relative : ¬ Absolute arg) (nonempty : base ≠ []) :
    components (push base arg) = components base ++ body arg := by
  obtain ⟨front, last, rfl⟩ := (List.eq_nil_or_concat' base).resolve_left nonempty
  simp only [push, relative, if_false, List.getLast?_concat]
  by_cases ends : last = separator
  · subst ends
    have ended : body (front ++ [separator]) = body front := by
      simp [body_append_separator front []]
    by_cases rootOnly : front = []
    · subst rootOnly
      have absolute : ∀ rest, lead (separator :: rest) = [.rootDir] := fun rest => by
        simp [lead, Absolute]
      have whole : body (separator :: arg) = body arg := body_append_separator [] arg
      simp [components, whole, absolute, show body [separator] = [] from rfl]
    · have shared := @lead_append_separator front arg rootOnly
      have alone := @lead_append_separator front [] rootOnly
      simp [components, body_append_separator, ended, shared, alone]
  · have shared := @lead_append_separator (front ++ [last]) arg nonempty
    rw [if_neg ends, components, shared, body_append_separator, components, List.append_assoc]

/-- In a relative path the leading `.` is all that comes before the body. -/
theorem stays_components {path : Path} (relative : ¬ Absolute path) (depth : Nat) :
    stays depth (components path) = stays depth (body path) := by
  simp only [components, lead, relative, if_false]
  split
  · cases depth <;> simp [stays]
  · simp

theorem inside_push_iff {base arg : Path} (relative : ¬ Absolute arg) :
    Inside base (push base arg) ↔ stays 0 (body arg) = true := by
  by_cases empty : base = []
  · subst empty
    have whole : push [] arg = arg := by simp [push]
    have none_ : components [] = [] := rfl
    simp [Inside, whole, none_, stays_components relative]
  · simp [Inside, components_push relative empty]

theorem inside_self (base : Path) : Inside base base := by
  simp [Inside, stays]

end Rdwarfs.Lib.UnixPath
