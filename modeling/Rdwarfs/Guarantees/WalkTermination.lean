import Rdwarfs.Lib.Descent
import Rdwarfs.Source.Fs.Walk
import Rdwarfs.Guarantees.OpenedFilesystem
import Mathlib.Data.UInt

/-!
# When the walk ends

Nothing bounds the recursion of `walk_inner`: an entry may name a directory that is being
walked. A directory is *sound* when its listing and those of all directories below it can be
read; the walk enters an entry's directory once every earlier entry of the same listing has
turned out sound, and on an unsound one it returns the error. It therefore runs for ever
exactly when some directory it enters is its own descendant.
-/
namespace Rdwarfs.Guarantees.WalkTermination

open Lib.Machine Lib.Descent Source Source.Fs

/-- The listings of `d` and of every directory below it can be read. -/
inductive Sound (fs : Filesystem) : UInt32 → Prop
  | listed {d : UInt32} {entries : List Listing} (read : fs.readDir d = .ok entries)
      (below : ∀ entry ∈ entries, entry.kind = .directory → Sound fs entry.inode) : Sound fs d

/-- The walk of `d` enters `c`. -/
def Descends (fs : Filesystem) (d c : UInt32) : Prop :=
  ∃ (before : List Listing) (entry : Listing) (after : List Listing),
    fs.readDir d = .ok (before ++ entry :: after) ∧
    entry.kind = .directory ∧ entry.inode = c ∧
    ∀ earlier ∈ before, earlier.kind = .directory → Sound fs earlier.inode

section Loop

variable {descend : UInt32 → Bytes → List WalkEntry → Option (Result (List WalkEntry))}

/-- A deeper recursion changes no answer the loop already had. -/
theorem walkEntries_mono
    {deeper : UInt32 → Bytes → List WalkEntry → Option (Result (List WalkEntry))}
    (extends_ : ∀ inode path out result,
      descend inode path out = some result → deeper inode path out = some result)
    {parentPath : Bytes} {entries : List Listing} {out : List WalkEntry}
    {result : Result (List WalkEntry)}
    (done : Filesystem.walkEntries descend parentPath entries out = some result) :
    Filesystem.walkEntries deeper parentPath entries out = some result := by
  induction entries generalizing out with
  | nil => exact done
  | cons entry rest ih =>
    simp only [Filesystem.walkEntries] at done ⊢
    by_cases isDir : entry.kind = .directory
    · simp only [isDir, if_true] at done ⊢
      cases below : descend entry.inode (joinPath parentPath entry.name)
          (out ++ [⟨joinPath parentPath entry.name, entry.inode, .directory⟩]) with
      | none => simp [below] at done
      | some answer =>
        rw [extends_ _ _ _ _ below]
        cases answer with
        | error failure => simpa [below] using done
        | ok walked =>
          simp only [below] at done
          exact ih done
    · simp only [isDir, if_false] at done ⊢
      exact ih done

/-- The loop completes when every recursive call does. -/
theorem walkEntries_completes {parentPath : Bytes} {entries : List Listing}
    (completes : ∀ entry ∈ entries, entry.kind = .directory →
      ∀ path out, ∃ walked, descend entry.inode path out = some (.ok walked))
    (out : List WalkEntry) :
    ∃ walked, Filesystem.walkEntries descend parentPath entries out = some (.ok walked) := by
  induction entries generalizing out with
  | nil => exact ⟨out, rfl⟩
  | cons entry rest ih =>
    have onward := ih fun later member => completes later (List.mem_cons_of_mem entry member)
    simp only [Filesystem.walkEntries]
    by_cases isDir : entry.kind = .directory
    · obtain ⟨walked, below⟩ := completes entry (by simp) isDir (joinPath parentPath entry.name)
        (out ++ [⟨joinPath parentPath entry.name, entry.inode, .directory⟩])
      simp only [isDir, if_true, below]
      exact onward walked
    · simp only [isDir, if_false]
      exact onward _

/-- A loop that completed has completed every recursive call. -/
theorem descend_ok_of_walkEntries_ok {parentPath : Bytes} {entries : List Listing}
    {out walked : List WalkEntry}
    (done : Filesystem.walkEntries descend parentPath entries out = some (.ok walked)) :
    ∀ entry ∈ entries, entry.kind = .directory →
      ∃ path out below, descend entry.inode path out = some (.ok below) := by
  induction entries generalizing out with
  | nil => simp
  | cons entry rest ih =>
    simp only [Filesystem.walkEntries] at done
    intro other member dir
    by_cases isDir : entry.kind = .directory
    · simp only [isDir, if_true] at done
      cases call : descend entry.inode (joinPath parentPath entry.name)
          (out ++ [⟨joinPath parentPath entry.name, entry.inode, .directory⟩]) with
      | none => simp [call] at done
      | some answer =>
        cases answer with
        | error failure => simp [call] at done
        | ok below =>
          simp only [call] at done
          rcases List.mem_cons.mp member with rfl | member
          · exact ⟨_, _, below, call⟩
          · exact ih done other member dir
    · simp only [isDir, if_false] at done
      rcases List.mem_cons.mp member with rfl | member
      · exact absurd dir isDir
      · exact ih done other member dir

/-- A loop that answers has an answer for the first directory after completed ones. -/
theorem descend_answers_of_walkEntries {parentPath : Bytes} {before after : List Listing}
    {entry : Listing} {out : List WalkEntry}
    (completes : ∀ earlier ∈ before, earlier.kind = .directory → ∀ path out answer,
      descend earlier.inode path out = some answer → ∃ walked, answer = .ok walked)
    (isDir : entry.kind = .directory)
    (answers : Filesystem.walkEntries descend parentPath (before ++ entry :: after) out ≠ none) :
    ∃ path out, descend entry.inode path out ≠ none := by
  induction before generalizing out with
  | nil =>
    refine ⟨joinPath parentPath entry.name,
      out ++ [⟨joinPath parentPath entry.name, entry.inode, .directory⟩], fun silent => ?_⟩
    simp [Filesystem.walkEntries, isDir, silent] at answers
  | cons first before ih =>
    have onward := fun out => @ih out fun earlier member =>
      completes earlier (List.mem_cons_of_mem first member)
    simp only [List.cons_append, Filesystem.walkEntries] at answers
    by_cases firstDir : first.kind = .directory
    · simp only [firstDir, if_true] at answers
      cases call : descend first.inode (joinPath parentPath first.name)
          (out ++ [⟨joinPath parentPath first.name, first.inode, .directory⟩]) with
      | none => simp [call] at answers
      | some answer =>
        obtain ⟨walked, rfl⟩ := completes first (by simp) firstDir _ _ _ call
        simp only [call] at answers
        exact onward walked answers
    · simp only [firstDir, if_false] at answers
      exact onward _ answers

end Loop

section Depth

variable {fs : Filesystem}

theorem walkInner_succ_mono {depth : Nat} {inode : UInt32} {path : Bytes}
    {out : List WalkEntry} {result : Result (List WalkEntry)}
    (done : fs.walkInner depth inode path out = some result) :
    fs.walkInner (depth + 1) inode path out = some result := by
  induction depth generalizing inode path out result with
  | zero => simp [Filesystem.walkInner] at done
  | succ depth ih =>
    rw [Filesystem.walkInner] at done ⊢
    cases read : fs.readDir inode with
    | error failure => simpa [read] using done
    | ok entries =>
      simp only [read] at done
      exact walkEntries_mono (fun _ _ _ _ shallow => ih shallow) done

theorem walkInner_mono {depth deeper : Nat} (le : depth ≤ deeper) {inode : UInt32}
    {path : Bytes} {out : List WalkEntry} {result : Result (List WalkEntry)}
    (done : fs.walkInner depth inode path out = some result) :
    fs.walkInner deeper inode path out = some result := by
  induction le with
  | refl => exact done
  | step _ ih => exact walkInner_succ_mono ih

/-- A sound directory is walked to its end. -/
theorem Sound.completes {d : UInt32} (sound : Sound fs d) :
    ∃ depth, ∀ path out, ∃ walked, fs.walkInner depth d path out = some (.ok walked) := by
  induction sound with
  | @listed d entries read below ih =>
    have bounded : ∃ depth, ∀ entry ∈ entries, entry.kind = .directory →
        ∀ path out, ∃ walked, fs.walkInner depth entry.inode path out = some (.ok walked) := by
      clear read
      induction entries with
      | nil => exact ⟨0, by simp⟩
      | cons first rest ihRest =>
        obtain ⟨restDepth, restDone⟩ := ihRest
          (fun entry member => below entry (List.mem_cons_of_mem first member))
          (fun entry member => ih entry (List.mem_cons_of_mem first member))
        by_cases firstDir : first.kind = .directory
        · obtain ⟨firstDepth, firstDone⟩ := ih first (by simp) firstDir
          refine ⟨max firstDepth restDepth, fun entry member isDir path out => ?_⟩
          rcases List.mem_cons.mp member with rfl | member
          · obtain ⟨walked, done⟩ := firstDone path out
            exact ⟨walked, walkInner_mono (Nat.le_max_left _ _) done⟩
          · obtain ⟨walked, done⟩ := restDone entry member isDir path out
            exact ⟨walked, walkInner_mono (Nat.le_max_right _ _) done⟩
        · refine ⟨restDepth, fun entry member isDir => ?_⟩
          rcases List.mem_cons.mp member with rfl | member
          · exact absurd isDir firstDir
          · exact restDone entry member isDir
    obtain ⟨depth, done⟩ := bounded
    refine ⟨depth + 1, fun path out => ?_⟩
    rw [Filesystem.walkInner, read]
    exact walkEntries_completes done out

/-- Whatever depth it is given, the walk of a sound directory does not fail. -/
theorem Sound.ok_of_answer {d : UInt32} (sound : Sound fs d) {depth : Nat} {path : Bytes}
    {out : List WalkEntry} {answer : Result (List WalkEntry)}
    (answered : fs.walkInner depth d path out = some answer) : ∃ walked, answer = .ok walked := by
  obtain ⟨enough, done⟩ := sound.completes
  obtain ⟨walked, complete⟩ := done path out
  have here := walkInner_mono (Nat.le_max_left depth enough) answered
  rw [walkInner_mono (Nat.le_max_right depth enough) complete] at here
  exact ⟨walked, (Option.some.inj here).symm⟩

theorem sound_of_walkInner_ok {depth : Nat} {d : UInt32} {path : Bytes}
    {out walked : List WalkEntry} (done : fs.walkInner depth d path out = some (.ok walked)) :
    Sound fs d := by
  induction depth generalizing d path out walked with
  | zero => simp [Filesystem.walkInner] at done
  | succ depth ih =>
    rw [Filesystem.walkInner] at done
    cases read : fs.readDir d with
    | error failure => simp [read] at done
    | ok entries =>
      simp only [read] at done
      refine .listed read fun entry member isDir => ?_
      obtain ⟨_, _, _, call⟩ := descend_ok_of_walkEntries_ok done entry member isDir
      exact ih call

end Depth

section Termination

variable {fs : Filesystem}

/-- The rest of a listing is walked to an answer when every directory it enters is. -/
theorem walkEntries_answers {d : UInt32}
    (enter : ∀ c, Descends fs d c → ∃ depth, ∀ path out, fs.walkInner depth c path out ≠ none)
    {before rest : List Listing} (read : fs.readDir d = .ok (before ++ rest))
    (sound : ∀ earlier ∈ before, earlier.kind = .directory → Sound fs earlier.inode) :
    ∃ depth, ∀ path out, Filesystem.walkEntries (fs.walkInner depth) path rest out ≠ none := by
  induction rest generalizing before with
  | nil => exact ⟨0, fun _ _ => by simp [Filesystem.walkEntries]⟩
  | cons entry rest ih =>
    have onward := @ih (before ++ [entry]) (by simpa using read)
    by_cases isDir : entry.kind = .directory
    · obtain ⟨here, answers⟩ := enter entry.inode ⟨before, entry, rest, read, isDir, rfl, sound⟩
      by_cases entrySound : Sound fs entry.inode
      · obtain ⟨below, done⟩ := entrySound.completes
        obtain ⟨later, laterAnswers⟩ := onward fun earlier member dir => by
          rcases List.mem_append.mp member with old | new
          · exact sound earlier old dir
          · rw [List.mem_singleton.mp new]
            exact entrySound
        refine ⟨max below later, fun path out => ?_⟩
        obtain ⟨walked, complete⟩ := done (joinPath path entry.name)
          (out ++ [⟨joinPath path entry.name, entry.inode, .directory⟩])
        simp only [Filesystem.walkEntries, isDir, if_true,
          walkInner_mono (Nat.le_max_left below later) complete]
        obtain ⟨result, answered⟩ := Option.ne_none_iff_exists'.mp (laterAnswers path walked)
        rw [walkEntries_mono
          (fun _ _ _ _ shallow => walkInner_mono (Nat.le_max_right below later) shallow) answered]
        simp
      · -- an unsound directory ends the walk with its error
        refine ⟨here, fun path out => ?_⟩
        obtain ⟨answer, answered⟩ := Option.ne_none_iff_exists'.mp (answers
          (joinPath path entry.name) (out ++ [⟨joinPath path entry.name, entry.inode, .directory⟩]))
        cases answer with
        | ok walked => exact absurd (sound_of_walkInner_ok answered) entrySound
        | error failure => simp [Filesystem.walkEntries, isDir, answered]
    · obtain ⟨later, laterAnswers⟩ := onward fun earlier member dir => by
        rcases List.mem_append.mp member with old | new
        · exact sound earlier old dir
        · exact absurd (List.mem_singleton.mp new ▸ dir) isDir
      refine ⟨later, fun path out => ?_⟩
      simp only [Filesystem.walkEntries, isDir, if_false]
      exact laterAnswers path _

theorem walkInner_answers_of_acc {d : UInt32} (acc : Acc (flip (Descends fs)) d) :
    ∃ depth, ∀ path out, fs.walkInner depth d path out ≠ none := by
  induction acc with
  | intro d _ ih =>
    cases read : fs.readDir d with
    | error failure => exact ⟨1, fun _ _ => by simp [Filesystem.walkInner, read]⟩
    | ok entries =>
      obtain ⟨depth, answers⟩ := @walkEntries_answers fs d ih [] entries
        (by simpa using read) (by simp)
      refine ⟨depth + 1, fun path out => ?_⟩
      rw [Filesystem.walkInner, read]
      exact answers path out

theorem acc_of_walkInner_answers {depth : Nat} {d : UInt32} {path : Bytes}
    {out : List WalkEntry} (answers : fs.walkInner depth d path out ≠ none) :
    Acc (flip (Descends fs)) d := by
  induction depth generalizing d path out with
  | zero => simp [Filesystem.walkInner] at answers
  | succ depth ih =>
    refine ⟨d, ?_⟩
    rintro c ⟨before, entry, after, read, isDir, rfl, sound⟩
    rw [Filesystem.walkInner, read] at answers
    have completes : ∀ earlier ∈ before, earlier.kind = .directory → ∀ path out answer,
        fs.walkInner depth earlier.inode path out = some answer → ∃ walked, answer = .ok walked :=
      fun earlier member dir _ _ _ answered => (sound earlier member dir).ok_of_answer answered
    obtain ⟨_, _, entered⟩ := descend_answers_of_walkEntries completes isDir answers
    exact ih entered

/-- `walk` returns, at some recursion depth, exactly when no directory that it enters is its
own descendant. -/
theorem walk_returns_iff (fs : Filesystem) :
    (∃ depth, fs.walk depth ≠ none) ↔
      ¬ ∃ d, Relation.ReflTransGen (Descends fs) 0 d ∧ Relation.TransGen (Descends fs) d d := by
  have finite : Finite UInt32 :=
    Finite.of_injective UInt32.toFin fun _ _ same => UInt32.toFin_inj.mp same
  rw [← acc_iff_no_cycle]
  cases root : fs.kind 0 with
  | error failure =>
    have noListing : fs.readDir 0 = .error failure := by simp [Filesystem.readDir, root]
    constructor
    · exact fun _ => ⟨0, fun c ⟨_, _, _, read, _⟩ => by simp [noListing] at read⟩
    · exact fun _ => ⟨0, by simp [Filesystem.walk, root]⟩
  | ok kind =>
    simp only [Filesystem.walk, root]
    constructor
    · exact fun ⟨depth, answers⟩ => acc_of_walkInner_answers answers
    · intro acc
      obtain ⟨depth, answers⟩ := walkInner_answers_of_acc acc
      exact ⟨depth, answers _ _⟩

open OpenedFilesystem in
/-- An image that opens and whose root lists itself: no depth is enough. -/
theorem walk_loop_never_returns :
    Format.Image.fromSource .checked (.ofVec loopBytes) = .ok loopImage ∧
      Filesystem.openImage libraries .checked loopImage = .ok loop ∧
      ¬ ∃ depth, loop.walk depth ≠ none := by
  refine ⟨build_loop, open_loop, fun ⟨depth, answers⟩ => ?_⟩
  have root : loop.kind 0 = .ok .directory := by decide
  have read : loop.readDir 0 = .ok [⟨0, .directory, [97]⟩] := by decide
  have itself : Descends loop 0 0 := ⟨[], _, [], read, rfl, rfl, by simp⟩
  simp only [Filesystem.walk, root] at answers
  exact not_acc_of_cycle (.single itself) (acc_of_walkInner_answers answers)

end Termination

end Rdwarfs.Guarantees.WalkTermination
