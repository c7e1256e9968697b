import Rdwarfs.Source.Fs.Extract
import Rdwarfs.Guarantees.OpenedFilesystem

/-!
# Where extraction writes

An entry of the walk is reached through a chain of directory listings, and its path is
made of the names along that chain. The names are bytes from the image: one may hold
slashes and `..` pieces of its own. This module says for every destination when the path
an entry is extracted to stays inside it.
-/
namespace Rdwarfs.Guarantees.ExtractContainment

open Lib.Machine Lib.UnixPath Source Source.Fs

/-- The inode `inode` is listed under `names`, the last of which is its own. -/
inductive Named (fs : Filesystem) : List Bytes → UInt32 → Prop
  | root : Named fs [] 0
  | entry {names : List Bytes} {directory : UInt32} {entries : List Listing} {found : Listing}
      (parent : Named fs names directory) (read : fs.readDir directory = .ok entries)
      (listed : found ∈ entries) : Named fs (names ++ [found.name]) found.inode

/-- The path the walk gives an entry. -/
def pathOf (names : List Bytes) : Bytes := names.flatMap fun name => slash :: name

@[simp] theorem pathOf_nil : pathOf [] = [] := rfl

@[simp] theorem pathOf_cons (name : Bytes) (names : List Bytes) :
    pathOf (name :: names) = slash :: (name ++ pathOf names) := by simp [pathOf]

theorem joinPath_pathOf (names : List Bytes) (name : Bytes) :
    joinPath (pathOf names) name = pathOf (names ++ [name]) := by
  simp [joinPath, pathOf]

section Walk

/-- A property of every listed entry, kept by every recursive call, holds of all that the
loop returns. -/
theorem walkEntries_preserves {property : WalkEntry → Prop}
    {descend : UInt32 → Bytes → List WalkEntry → Option (Result (List WalkEntry))}
    {parentPath : Bytes} {entries : List Listing} {out walked : List WalkEntry}
    (listed : ∀ entry ∈ entries,
      property ⟨joinPath parentPath entry.name, entry.inode, entry.kind⟩)
    (keeps : ∀ entry ∈ entries, ∀ out walked, (∀ visited ∈ out, property visited) →
      descend entry.inode (joinPath parentPath entry.name) out = some (.ok walked) →
      ∀ visited ∈ walked, property visited)
    (before : ∀ visited ∈ out, property visited)
    (done : Filesystem.walkEntries descend parentPath entries out = some (.ok walked)) :
    ∀ visited ∈ walked, property visited := by
  induction entries generalizing out with
  | nil =>
    cases done
    exact before
  | cons entry rest ih =>
    have onward := fun out => @ih out
      (fun later member => listed later (List.mem_cons_of_mem entry member))
      (fun later member => keeps later (List.mem_cons_of_mem entry member))
    have extended : ∀ visited ∈
        out ++ [⟨joinPath parentPath entry.name, entry.inode, entry.kind⟩], property visited := by
      intro visited member
      rcases List.mem_append.mp member with old | new
      · exact before visited old
      · rw [List.mem_singleton.mp new]
        exact listed entry (by simp)
    simp only [Filesystem.walkEntries] at done
    by_cases isDir : entry.kind = .directory
    · simp only [isDir, if_true] at done extended
      cases call : descend entry.inode (joinPath parentPath entry.name)
          (out ++ [⟨joinPath parentPath entry.name, entry.inode, .directory⟩]) with
      | none => simp [call] at done
      | some answer =>
        cases answer with
        | error failure => simp [call] at done
        | ok below =>
          simp only [call] at done
          exact onward below (keeps entry (by simp) _ below extended call) done
    · simp only [isDir, if_false] at done
      exact onward _ extended done

section Preserved

variable {fs : Filesystem} {reached : Bytes → UInt32 → Prop} {property : WalkEntry → Prop}
  (handed : ∀ path inode entries, reached path inode → fs.readDir inode = .ok entries →
    ∀ entry ∈ entries, property ⟨joinPath path entry.name, entry.inode, entry.kind⟩ ∧
      reached (joinPath path entry.name) entry.inode)

include handed

/-- What the listing of a directory that was reached hands on, every entry of the walk has. -/
theorem walkInner_preserves {depth : Nat} {inode : UInt32} {path : Bytes}
    {out walked : List WalkEntry} (here : reached path inode)
    (before : ∀ visited ∈ out, property visited)
    (done : fs.walkInner depth inode path out = some (.ok walked)) :
    ∀ visited ∈ walked, property visited := by
  induction depth generalizing inode path out walked with
  | zero => simp [Filesystem.walkInner] at done
  | succ depth ih =>
    rw [Filesystem.walkInner] at done
    cases read : fs.readDir inode with
    | error failure => simp [read] at done
    | ok entries =>
      simp only [read] at done
      have below := handed path inode entries here read
      refine walkEntries_preserves (fun entry member => (below entry member).1) ?_ before done
      intro entry member out walked earlier call
      exact ih (below entry member).2 earlier call

theorem walk_preserves {depth : Nat} {walked : List WalkEntry} (root : reached [] 0)
    (first : ∀ kind, fs.kind 0 = .ok kind → property ⟨[], 0, kind⟩)
    (done : fs.walk depth = some (.ok walked)) : ∀ visited ∈ walked, property visited := by
  simp only [Filesystem.walk] at done
  cases known : fs.kind 0 with
  | error failure => simp [known] at done
  | ok kind =>
    simp only [known] at done
    refine walkInner_preserves handed root ?_ done
    intro visited member
    rw [List.mem_singleton.mp member]
    exact first kind known

end Preserved

/-- Every entry of the walk is named by a chain of listings. -/
theorem walk_named {fs : Filesystem} {depth : Nat} {walked : List WalkEntry}
    (done : fs.walk depth = some (.ok walked)) :
    ∀ visited ∈ walked, ∃ names, Named fs names visited.inode ∧ visited.path = pathOf names := by
  refine @walk_preserves fs (fun path inode => ∃ names, Named fs names inode ∧ path = pathOf names)
    _ ?_ _ _ ⟨[], .root, rfl⟩ (fun _ _ => ⟨[], .root, rfl⟩) done
  rintro _ inode entries ⟨names, named, rfl⟩ read entry member
  have below : ∃ deeper, Named fs deeper entry.inode ∧
      joinPath (pathOf names) entry.name = pathOf deeper :=
    ⟨_, named.entry read member, joinPath_pathOf _ _⟩
  exact ⟨below, below⟩

end Walk

section Containment

/-- The names spell an absolute path: the first starts with a slash, or is empty and
followed by another. -/
def Rooted : List Bytes → Prop
  | [] => False
  | name :: rest => name.head? = some slash ∨ (name = [] ∧ rest ≠ [])

instance : ∀ names, Decidable (Rooted names)
  | [] => isFalse id
  | _ :: _ => inferInstanceAs (Decidable (_ ∨ _))

theorem absolute_stripSlash_iff (names : List Bytes) :
    Absolute (stripSlash (pathOf names)) ↔ Rooted names := by
  cases names with
  | nil => simp [stripSlash, Rooted]
  | cons name rest =>
    simp only [pathOf_cons, stripSlash, if_true, Rooted]
    cases name with
    | nil => cases rest <;> simp [Absolute, slash, separator]
    | cons byte name => simp [Absolute, slash, separator]

/-- The components of a path are those of its names, one after another. -/
theorem body_stripSlash (names : List Bytes) :
    body (stripSlash (pathOf names)) = names.flatMap body := by
  cases names with
  | nil => rfl
  | cons name rest =>
    simp only [pathOf_cons, stripSlash, if_true, List.flatMap_cons]
    induction rest generalizing name with
    | nil => simp
    | cons next rest ih =>
      simp only [pathOf_cons, List.flatMap_cons]
      exact (body_append_separator name _).trans (congrArg (body name ++ ·) (ih next))

/-- When the names resolve inside `dest`. -/
def Contained (dest : Path) (names : List Bytes) : Prop :=
  if Rooted names then Inside dest (stripSlash (pathOf names))
  else stays 0 (names.flatMap body) = true

theorem inside_resolvePath_iff (dest : Path) (names : List Bytes) :
    Inside dest (resolvePath dest (pathOf names)) ↔ Contained dest names := by
  cases names with
  | nil => simp [resolvePath, Contained, Rooted, stays, inside_self]
  | cons name rest =>
    have nonempty : pathOf (name :: rest) ≠ [] := by simp
    rw [resolvePath, if_neg nonempty, Contained]
    by_cases rooted : Rooted (name :: rest)
    · rw [if_pos rooted, push_of_absolute ((absolute_stripSlash_iff _).mpr rooted)]
    · have relative := fun absolute => rooted ((absolute_stripSlash_iff _).mp absolute)
      rw [if_neg rooted, inside_push_iff relative, body_stripSlash]

/-- Inside every destination: only names that spell a relative path and never climb. -/
theorem contained_everywhere_iff (names : List Bytes) :
    (∀ dest, Contained dest names) ↔ ¬ Rooted names ∧ stays 0 (names.flatMap body) = true := by
  constructor
  · intro everywhere
    by_cases rooted : Rooted names
    · have absolute := (absolute_stripSlash_iff names).mpr rooted
      have inside := everywhere [100]
      rw [Contained, if_pos rooted, Inside, show components [100] = [.normal [100]] from rfl,
        components, lead, if_pos absolute] at inside
      simp at inside
    · have inside := everywhere []
      rw [Contained, if_neg rooted] at inside
      exact ⟨rooted, inside⟩
  · rintro ⟨relative, below⟩ dest
    rwa [Contained, if_neg relative]

/-- Every entry that the walk returns is extracted inside the destination exactly when the
names it is listed under neither spell an absolute path that leaves it nor climb. -/
theorem extract_inside_iff {fs : Filesystem} {depth : Nat} {walked : List WalkEntry}
    (done : fs.walk depth = some (.ok walked)) {entry : WalkEntry} (member : entry ∈ walked) :
    ∃ names, Named fs names entry.inode ∧ entry.path = pathOf names ∧
      ∀ dest, Inside dest (resolvePath dest entry.path) ↔ Contained dest names := by
  obtain ⟨names, named, path⟩ := walk_named done entry member
  exact ⟨names, named, path, fun dest => path ▸ inside_resolvePath_iff dest names⟩

section Inputs

open OpenedFilesystem

/-- What the walk of `climbing` returns: the root, and the file under `/../a`. -/
def climbingWalk : List WalkEntry :=
  [⟨[], 0, .directory⟩, ⟨[47, 46, 46, 47, 97], 1, .regular⟩]

theorem extract_inside_climbing :
    ∃ names, Named climbing names 1 ∧ [47, 46, 46, 47, 97] = pathOf names ∧
      ∀ dest, Inside dest (resolvePath dest [47, 46, 46, 47, 97]) ↔ Contained dest names :=
  @extract_inside_iff climbing 1 climbingWalk (by decide)
    ⟨[47, 46, 46, 47, 97], 1, .regular⟩ (by decide)

/-- The image opens, and its file is written next to the destination `d`, not inside it. -/
theorem extract_climbs :
    Format.Image.fromSource .checked (.ofVec climbingBytes) = .ok climbingImage ∧
      Filesystem.openImage libraries .checked climbingImage = .ok climbing ∧
      climbing.walk 1 = some (.ok climbingWalk) ∧
      ∃ entry ∈ climbingWalk, resolvePath [100] entry.path = [100, 47, 46, 46, 47, 97] ∧
        ¬ Inside [100] (resolvePath [100] entry.path) :=
  ⟨build_climbing, open_climbing, by decide,
    ⟨[47, 46, 46, 47, 97], 1, .regular⟩, by decide, by decide, by decide⟩

end Inputs

end Containment

end Rdwarfs.Guarantees.ExtractContainment
