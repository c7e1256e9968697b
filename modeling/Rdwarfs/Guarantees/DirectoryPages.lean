import Rdwarfs.Lib.Paging
import Rdwarfs.Source.Fuse
import Rdwarfs.Guarantees.TreeAgreement

/-!
# Paging through a directory

Every call of `readdir` answers with a page of one numbered list, although it counts through two
loops from the start each time. Reading on from the last cookie therefore loses and repeats nothing.
-/
namespace Rdwarfs.Guarantees.DirectoryPages

open Lib.Machine Lib.Paging Source Source.Fs Source.Fuse TreeAgreement OpenedFilesystem

/-- What the reply shows of an entry. -/
def childOf (entry : Listing) : Fuse.Entry where
  ino := fuseIno entry.inode
  kind := fileType entry.kind
  name := entry.name

/-- The entries behind `offset`, when the first of them has the index `index`. -/
def behind (offset index : Nat) (entries : List Fuse.Entry) : List (Fuse.Entry × Nat) :=
  (entries.zipIdx (index + 1)).filter fun entry => offset < entry.2

section Behind

variable {offset index : Nat} {entry : Fuse.Entry} {rest : List Fuse.Entry}

theorem behind_skipped (before : index < offset) :
    behind offset index (entry :: rest) = behind offset (index + 1) rest := by
  rw [behind, List.zipIdx_cons, List.filter_cons_of_neg (by simp only [decide_eq_true_eq]; omega)]
  rfl

theorem behind_shown (after : ¬ index < offset) :
    behind offset index (entry :: rest) =
      (entry, index + 1) :: behind offset (index + 1) rest := by
  rw [behind, List.zipIdx_cons, List.filter_cons_of_pos (by simp only [decide_eq_true_eq]; omega)]
  rfl

theorem behind_append (entries more : List Fuse.Entry) :
    behind offset index (entries ++ more) =
      behind offset index entries ++ behind offset (index + entries.length) more := by
  rw [behind, List.zipIdx_append, List.filter_append, Nat.add_right_comm]
  rfl

end Behind

/-- The dot loop either takes everything behind the offset or fills the buffer. -/
theorem addDots_eq (offset : Nat) (entries : List Fuse.Entry) (index room : Nat)
    (taken : List (Fuse.Entry × Nat)) :
    ((behind offset index entries).length ≤ room →
      addDots offset entries index ⟨room, taken⟩ =
        (false, index + entries.length, ⟨room - (behind offset index entries).length,
          taken ++ behind offset index entries⟩)) ∧
    (room < (behind offset index entries).length →
      ∃ reached, addDots offset entries index ⟨room, taken⟩ =
        (true, reached, ⟨0, taken ++ (behind offset index entries).take room⟩)) := by
  induction entries generalizing index room taken with
  | nil => simp [addDots, behind]
  | cons entry rest ih =>
    by_cases before : index < offset
    · rw [behind_skipped before, addDots, if_neg (Nat.not_le.mpr before)]
      obtain ⟨all, some_⟩ := ih (index + 1) room taken
      refine ⟨?_, some_⟩
      intro enough
      rw [all enough, List.length_cons, Nat.add_right_comm, Nat.add_assoc]
    · rw [behind_shown before, addDots, if_pos (Nat.not_lt.mp before), List.length_cons]
      cases room with
      | zero => simp [ReplyDirectory.add]
      | succ room =>
        obtain ⟨all, some_⟩ := ih (index + 1) room (taken ++ [(entry, index + 1)])
        simp only [ReplyDirectory.add]
        constructor
        · intro enough
          rw [all (by omega), List.length_cons, List.append_assoc, List.singleton_append]
          rw [show index + 1 + rest.length = index + (rest.length + 1) by omega]
          rw [Nat.add_sub_add_right]
        · intro short
          obtain ⟨reached, eq⟩ := some_ (by omega)
          exact ⟨reached, by rw [eq, List.take_succ_cons, List.append_assoc, List.singleton_append]⟩

/-- The walk goes on with the index it is handed, until the buffer is full. -/
theorem visitEntries_eq (fs : Filesystem) (offset : Nat) {places : List Nat}
    {entries : List Listing}
    (resolved : List.Forall₂ (fun i entry => fs.listEntry i = .ok entry) places entries)
    (index room : Nat) (taken : List (Fuse.Entry × Nat)) :
    ∃ state, fs.visitEntries (visitChild offset) places (index, ⟨room, taken⟩) = .ok state ∧
      state.2.entries = taken ++ (behind offset index (entries.map childOf)).take room := by
  induction resolved generalizing index room taken with
  | nil => exact ⟨_, rfl, by simp [behind]⟩
  | @cons place entry places entries here later ih =>
    rw [Filesystem.visitEntries, here, ok_bind, List.map_cons]
    by_cases before : index < offset
    · simp only [visitChild, if_pos before, if_true]
      rw [behind_skipped before]
      exact ih (index + 1) room taken
    · rw [behind_shown before]
      cases room with
      | zero =>
        refine ⟨(index + 1, ⟨0, taken⟩), ?_, by simp⟩
        simp [visitChild, if_neg before, ReplyDirectory.add]
      | succ room =>
        obtain ⟨state, eq, entries_⟩ := ih (index + 1) room (taken ++ [(childOf entry, index + 1)])
        refine ⟨state, ?_, ?_⟩
        · simp only [visitChild, if_neg before, ReplyDirectory.add, Bool.not_false, if_true]
          exact eq
        · rw [entries_, List.take_succ_cons, List.append_assoc, List.singleton_append]

theorem dwarfsIno_fuseIno (dir : UInt32) : dwarfsIno (fuseIno dir) = .ok dir := by
  have bound := dir.toNat_lt
  rw [dwarfsIno, fuseIno, if_neg (by omega), Nat.add_sub_cancel, if_pos bound, UInt32.ofNat_toNat]

/-- The parent, where the directory's entry for it resolves. -/
def shownParent (fs : Filesystem) (dir : UInt32) : UInt32 :=
  match fs.parent dir with
  | .ok parent => parent
  | .error _ => dir

theorem parentOrSelf_eq {fs : Filesystem} {dir : UInt32} (known : fs.kind dir = .ok .directory) :
    parentOrSelf fs dir = .ok (shownParent fs dir) := by
  have calm : fs.parent dir ≠ panicked := by
    intro stopped
    unfold Filesystem.parent at stopped
    rw [known, ok_bind, refuseIf_of_not (by simp), ok_bind] at stopped
    simp only [bind_eq_panicked, okOr_ne_panicked, false_or] at stopped
    obtain ⟨_, -, _, -, done⟩ := stopped
    cases done
  unfold parentOrSelf shownParent
  cases found : fs.parent dir with
  | ok parent => rfl
  | error failure =>
    cases failure with
    | err reason => rfl
    | panic => exact absurd found calm

/-- What there is to list: `.`, `..` and the directory's entries in order. -/
def listing (fs : Filesystem) (dir : UInt32) (entries : List Listing) : List Fuse.Entry :=
  dots dir (shownParent fs dir) ++ entries.map childOf

section Calls

variable {fs : Filesystem} {dir : UInt32} {entries : List Listing}
  (resolves : fs.readDir dir = .ok entries)

include resolves

/-- Wherever a call starts and whatever its buffer holds, it answers with a page. -/
theorem readdir_eq (offset room : Nat) :
    readdir fs (fuseIno dir) offset room = .ok (page (listing fs dir entries) offset room) := by
  obtain ⟨known, start, stop, range, -, resolved⟩ := readDir_eq_ok resolves
  have whole : page (listing fs dir entries) offset room =
      (behind offset 0 (dots dir (shownParent fs dir)) ++
        behind offset 2 (entries.map childOf)).take room := by
    rw [page_eq_filter]
    exact congrArg _ (behind_append _ _)
  unfold readdir
  rw [dwarfsIno_fuseIno, ok_bind, parentOrSelf_eq known, ok_bind, whole]
  obtain ⟨all, some_⟩ := addDots_eq offset (dots dir (shownParent fs dir)) 0 room []
  by_cases enough : (behind offset 0 (dots dir (shownParent fs dir))).length ≤ room
  · obtain ⟨state, walked, shown⟩ := visitEntries_eq fs offset resolved 2
      (room - (behind offset 0 (dots dir (shownParent fs dir))).length)
      ([] ++ behind offset 0 (dots dir (shownParent fs dir)))
    have reached : 0 + (dots dir (shownParent fs dir)).length = 2 := rfl
    rw [all enough, reached]
    have each : fs.forEachEntry dir (visitChild offset)
        (2, ⟨room - (behind offset 0 (dots dir (shownParent fs dir))).length,
          [] ++ behind offset 0 (dots dir (shownParent fs dir))⟩) = .ok state := by
      unfold Filesystem.forEachEntry
      rw [known, ok_bind, refuseIf_of_not (by simp), ok_bind, range, ok_bind]
      exact walked
    dsimp only
    rw [each]
    dsimp only
    rw [shown, List.nil_append, List.take_append, List.take_of_length_le enough]
  · obtain ⟨reached, full⟩ := some_ (Nat.lt_of_not_le enough)
    rw [full]
    simp only [List.nil_append]
    rw [List.take_append_of_le_length (Nat.le_of_not_le enough)]

/-- Whatever is accepted over a series of calls, each at 0 or at the last cookie accepted, is the
front of the listing; and it is all of it once a call adds nothing. -/
theorem readdir_pages (requests : List Lib.Paging.Request) (accepted : List (Fuse.Entry × Nat))
    (run : Accepted (fun request => readdir fs (fuseIno dir) request.cookie request.room)
      requests accepted) :
    accepted.map Prod.fst <+: listing fs dir entries ∧
    (accepted.Pairwise fun one other => one.2 < other.2) ∧
    (∀ room, 0 < room →
      ∃ added, readdir fs (fuseIno dir) 0 room = .ok added ∧ added ≠ []) ∧
    ∀ room cookie last, 0 < room → accepted.getLast? = some (last, cookie) →
      ∃ added, readdir fs (fuseIno dir) cookie room = .ok added ∧
        (added = [] → accepted.map Prod.fst = listing fs dir entries) := by
  have answers := fun request : Lib.Paging.Request => readdir_eq resolves request.cookie request.room
  have front := run.front answers
  refine ⟨?_, (numbered_increasing _).sublist front.sublist, ?_, ?_⟩
  · rw [← numbered_fst (listing fs dir entries)]
    exact front.map Prod.fst
  · intro room some_
    obtain ⟨left, rfl⟩ : ∃ left, room = left + 1 := ⟨room - 1, by omega⟩
    exact ⟨_, readdir_eq resolves 0 (left + 1), List.cons_ne_nil _ _⟩
  · intro room cookie last some_ last_
    refine ⟨_, readdir_eq resolves cookie room, ?_⟩
    intro empty
    rw [← numbered_fst (listing fs dir entries)]
    congr 1
    apply run.whole answers some_ last_
    rw [readdir_eq resolves cookie room, empty]

end Calls

/-- A root directory with one file in it, called `a`. -/
def single : Filesystem :=
  filesystem climbingImage (rootTables [97] 1 [0o040755, 0o100644]) [] ⟨0, 2, 1, 2, 2, 2, 2⟩

theorem readDir_single : single.readDir 0 = .ok [⟨1, .regular, [97]⟩] := by decide

/-- A call with room for the dot entries, and one that goes on behind them. -/
def singleRequests : List Lib.Paging.Request := [⟨0, 2⟩, ⟨2, 4⟩]

def singleAccepted : List (Fuse.Entry × Nat) :=
  [(⟨1, .directory, [0x2E]⟩, 1), (⟨1, .directory, [0x2E, 0x2E]⟩, 2), (⟨2, .regularFile, [97]⟩, 3)]

theorem single_run :
    Accepted (fun request => readdir single (fuseIno 0) request.cookie request.room)
      singleRequests singleAccepted := by
  have first : readdir single (fuseIno 0) 0 2 = .ok (singleAccepted.take 2) := by decide
  have second : readdir single (fuseIno 0) 2 4 = .ok (singleAccepted.drop 2) := by decide
  have started : Accepted (fun request => readdir single (fuseIno 0) request.cookie request.room)
      ([] ++ [⟨0, 2⟩]) (singleAccepted.take 2) := .start .nothing (by decide) first
  exact .resume started (by decide) rfl second

theorem readdir_pages_single :
    singleAccepted.map Prod.fst = listing single 0 [⟨1, .regular, [97]⟩] := by
  obtain ⟨added, answered, whole⟩ :=
    (readdir_pages readDir_single singleRequests singleAccepted single_run).2.2.2
      4 3 ⟨2, .regularFile, [97]⟩ (by decide) rfl
  apply whole
  have none_ : readdir single (fuseIno 0) 3 4 = .ok [] := by decide
  rw [none_] at answered
  cases answered
  rfl

end Rdwarfs.Guarantees.DirectoryPages
