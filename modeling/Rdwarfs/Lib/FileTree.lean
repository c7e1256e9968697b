import Mathlib.Data.List.Basic
import Mathlib.Logic.Function.Basic

/-!
# Trees of files

What it does to a tree to create, fill and link files, where that succeeds. A place is the
list of its components. A hard link is a copy here: it has the node of its source, and the
two stay equal as long as neither is written to again.
-/
namespace Rdwarfs.Lib.FileTree

inductive FileNode where
  | directory
  | file (bytes : List UInt8)
  | symlink (target : List UInt8)
  deriving DecidableEq, Repr

abbrev Files (κ : Type) := List κ → Option FileNode

namespace Files

variable {κ : Type}

/-- The bytes of the file at a place, if there is one. -/
def fileAt (tree : Files κ) (place : List κ) : Option (List UInt8) :=
  match tree place with
  | some (.file bytes) => some bytes
  | _ => none

theorem fileAt_eq_some {tree : Files κ} {place : List κ} {bytes : List UInt8} :
    tree.fileAt place = some bytes ↔ tree place = some (.file bytes) := by
  cases here : tree place with
  | none => simp [fileAt, here]
  | some node => cases node <;> simp [fileAt, here]

/-- What was there is still there, but perhaps not at `place`. -/
def Spares (place : List κ) (before after : Files κ) : Prop :=
  ∀ other node, other ≠ place → before other = some node → after other = some node

theorem Spares.refl (place : List κ) (tree : Files κ) : Spares place tree tree :=
  fun _ _ _ there => there

theorem Spares.trans {before between after : Files κ} {place : List κ}
    (first : Spares place before between) (second : Spares place between after) :
    Spares place before after :=
  fun other node apart there => second other node apart (first other node apart there)

variable [DecidableEq κ]

/-- A directory at every place on the way that has nothing. -/
def createDirAll (tree : Files κ) (place : List κ) : Files κ := fun other =>
  if tree other = none ∧ other <+: place then some .directory else tree other

def put (tree : Files κ) (place : List κ) (node : FileNode) : Files κ :=
  Function.update tree place (some node)

def append (tree : Files κ) (place : List κ) (bytes : List UInt8) : Files κ :=
  Function.update tree place
    (match tree place with
      | some (.file written) => some (.file (written ++ bytes))
      | node => node)

def link (tree : Files κ) (source target : List κ) : Files κ :=
  Function.update tree target (tree source)

section Effects

variable (tree : Files κ) {place other : List κ}

theorem createDirAll_kept {node : FileNode} (there : tree other = some node) :
    tree.createDirAll place other = some node := by
  simp [createDirAll, there]

theorem createDirAll_self (missing : tree place = none ∨ tree place = some .directory) :
    tree.createDirAll place place = some .directory := by
  rcases missing with absent | there
  · simp [createDirAll, absent]
  · exact createDirAll_kept tree there

theorem createDirAll_cases :
    tree.createDirAll place other = some .directory ∨
      tree.createDirAll place other = tree other := by
  unfold createDirAll
  split
  · exact Or.inl rfl
  · exact Or.inr rfl

@[simp] theorem fileAt_createDirAll : (tree.createDirAll place).fileAt other = tree.fileAt other := by
  unfold fileAt createDirAll
  by_cases missing : tree other = none ∧ other <+: place
  · rw [if_pos missing, missing.1]
  · rw [if_neg missing]

@[simp] theorem put_self (node : FileNode) : tree.put place node place = some node :=
  Function.update_self ..

theorem put_other (node : FileNode) (apart : other ≠ place) : tree.put place node other = tree other :=
  Function.update_of_ne apart ..

@[simp] theorem fileAt_put_self (bytes : List UInt8) :
    (tree.put place (.file bytes)).fileAt place = some bytes := by
  simp [fileAt]

theorem fileAt_put_other (node : FileNode) (apart : other ≠ place) :
    (tree.put place node).fileAt other = tree.fileAt other := by
  rw [fileAt, put_other tree node apart, fileAt]

theorem append_other (bytes : List UInt8) (apart : other ≠ place) :
    tree.append place bytes other = tree other :=
  Function.update_of_ne apart ..

theorem fileAt_append_self (bytes : List UInt8) :
    (tree.append place bytes).fileAt place = (tree.fileAt place).map (· ++ bytes) := by
  rw [fileAt, append, Function.update_self]
  cases here : tree place with
  | none => simp [fileAt, here]
  | some node => cases node <;> simp [fileAt, here]

theorem fileAt_append_other (bytes : List UInt8) (apart : other ≠ place) :
    (tree.append place bytes).fileAt other = tree.fileAt other := by
  rw [fileAt, append_other tree bytes apart, fileAt]

@[simp] theorem link_self (source : List κ) : tree.link source place place = tree source :=
  Function.update_self ..

theorem link_other (source : List κ) (apart : other ≠ place) :
    tree.link source place other = tree other :=
  Function.update_of_ne apart ..

end Effects

section Frames

theorem spares_createDirAll (place parent : List κ) (tree : Files κ) :
    Spares place tree (tree.createDirAll parent) :=
  fun _ _ _ there => createDirAll_kept tree there

theorem spares_put (place : List κ) (tree : Files κ) (node : FileNode) :
    Spares place tree (tree.put place node) :=
  fun _ _ apart there => (put_other tree node apart).trans there

theorem spares_link (source place : List κ) (tree : Files κ) :
    Spares place tree (tree.link source place) :=
  fun _ _ apart there => (link_other tree source apart).trans there

end Frames

end Files

end Rdwarfs.Lib.FileTree
