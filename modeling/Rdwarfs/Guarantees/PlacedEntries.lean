import Rdwarfs.Guarantees.WrittenFiles
import Mathlib.Data.List.Pairwise

/-!
# The three phases on a disk

Where every call succeeds, phase 1 leaves the directories, phase 2 the first file of each
content and a map to them, and phase 3 gives every other file the node of the one that the
map names. No entry is handled twice, and none is touched by what is done for another.
-/
namespace Rdwarfs.Guarantees.PlacedEntries

open Lib.Machine Lib.Oracle Lib.UnixPath Lib.Interleaving Lib.FileTree
open Source Source.Fs Source.Codecs Extraction
open OpenedFilesystem ExtractRuns WrittenFiles

/-- How many entries the statistics speak of. -/
def handled (stats : ExtractStats) : Nat :=
  stats.directories + stats.files + stats.hardlinks + stats.symlinks + stats.skipped

/-- `n` entries more are handled, and no error is. -/
structure Counts (tally later : Tally) (n : Nat) : Prop where
  errors : later.errors = tally.errors
  handled : handled later.stats = handled tally.stats + n

theorem Counts.trans {tally between later : Tally} {n m : Nat} (first : Counts tally between n)
    (second : Counts between later m) : Counts tally later (n + m) :=
  ⟨second.errors.trans first.errors, by rw [second.handled, first.handled, Nat.add_assoc]⟩

theorem settle_counts {options : ExtractOptions} (tally : Tally) (position : Nat)
    {count : ExtractStats → ExtractStats}
    (one : ∀ stats, handled (count stats) = handled stats + 1) :
    ∃ later, tally.settle options position count (.ok ()) = .ok later ∧ Counts tally later 1 :=
  ⟨_, rfl, rfl, one tally.stats⟩

section Calls

variable {fs : Filesystem} {contents : UInt32 → Bytes} {before after : Scene (Files Component)}

/-- Calls that are answered from outside without a read. -/
def calls : Request → Bool
  | .readInto _ _ _ => false
  | .insert _ _ => false
  | _ => true

theorem disk_call {request : Request} (outward : calls request = true) {result : Result Unit}
    (ran : Runs (inScene (onDisk fs contents)) (call request) before result after) :
    result = .ok () ∧ after = ⟨effect request before.outside, before.written⟩ := by
  obtain ⟨reply, answers, ended⟩ := runs_call.mp ran
  have answered : reply = .succeeded ∧ after = ⟨effect request before.outside, before.written⟩ := by
    obtain ⟨tree, written⟩ := after
    cases request with
    | readInto _ _ _ | insert _ _ => cases outward
    | _ =>
      obtain ⟨⟨same, succeeded⟩, kept⟩ := answers
      exact ⟨succeeded, by rw [← same, ← kept]⟩
  rcases ended with ⟨_, same⟩ | ⟨other, _⟩
  · exact ⟨same, answered.2⟩
  · exact absurd answered.1 other

def withParent (tree : Files Component) (target : Place) : Files Component :=
  match parentOf target with
  | some parent => tree.createDirAll parent
  | none => tree

theorem spares_withParent (target : Place) (tree : Files Component) :
    Files.Spares target tree (withParent tree target) := by
  unfold withParent
  split
  · exact Files.spares_createDirAll target _ tree
  · exact Files.Spares.refl target tree

theorem disk_createParent {target : Place} {result : Result Unit}
    (ran : Runs (inScene (onDisk fs contents)) (createParent target) before result after) :
    result = .ok () ∧ after = ⟨withParent before.outside target, before.written⟩ := by
  unfold createParent at ran
  unfold withParent
  cases above : parentOf target with
  | some parent =>
    rw [above] at ran
    exact disk_call rfl ran
  | none =>
    rw [above] at ran
    obtain ⟨rfl, rfl⟩ := runs_done.mp ran
    exact ⟨rfl, rfl⟩

/-- A call once the parent is there. -/
theorem disk_call_below {request : Request} (outward : calls request = true) {target : Place}
    {result : Result Unit}
    (ran : Runs (inScene (onDisk fs contents)) (createParent target >>= fun _ => call request)
      before result after) :
    result = .ok () ∧
      after = ⟨effect request (withParent before.outside target), before.written⟩ := by
  rcases runs_bind.mp ran with ⟨_, between, parent, ran⟩ | ⟨failure, parent, _⟩
  · obtain ⟨_, rfl⟩ := disk_createParent parent
    exact disk_call outward ran
  · cases (disk_createParent parent).1

/-- One operation that succeeds, and what is counted of it. -/
theorem disk_settled {program : Extracting Unit} {options : ExtractOptions} {tally : Tally}
    {position : Nat} {count : ExtractStats → ExtractStats}
    {next : Except Error Unit → Tally → Extracting Tally} {result : Result Tally}
    {between : Scene (Files Component)}
    (one : ∀ stats, handled (count stats) = handled stats + 1)
    (succeeds : ∀ outcome after, Runs (inScene (onDisk fs contents)) program before outcome after →
      outcome = .ok () ∧ after = between)
    (ran : Runs (inScene (onDisk fs contents)) (attempted program >>= fun outcome =>
      Prog.lift (tally.settle options position count outcome) >>= next outcome) before result after) :
    ∃ later, Counts tally later 1 ∧
      Runs (inScene (onDisk fs contents)) (next (.ok ()) later) between result after := by
  rcases runs_bind.mp ran with ⟨outcome, reached, tried, ran⟩ | ⟨failure, tried, _⟩
  · obtain ⟨ended, tried, known⟩ := runs_attempted.mp tried
    obtain ⟨rfl, rfl⟩ := succeeds _ _ tried
    cases known
    obtain ⟨later, settled, counted⟩ := @settle_counts options tally position _ one
    rw [settled, Prog.lift_ok_bind] at ran
    exact ⟨later, counted, ran⟩
  · obtain ⟨ended, tried, known⟩ := runs_attempted.mp tried
    obtain ⟨rfl, rfl⟩ := succeeds _ _ tried
    cases known

end Calls

section Directories

variable {fs : Filesystem} {contents : UInt32 → Bytes} {dest : Path} {options : ExtractOptions}

/-- Nothing but directories at or below a place. -/
def Bare (base : Place) (tree : Files Component) : Prop :=
  ∀ place, base <+: place → tree place = none ∨ tree place = some .directory

theorem Bare.createDirAll {base place : Place} {tree : Files Component} (bare : Bare base tree) :
    Bare base (tree.createDirAll place) := by
  intro other inside
  rcases @Files.createDirAll_cases _ _ tree place other with made | same
  · exact Or.inr made
  · rw [same]
    exact bare other inside

/-- What phase 1 leaves: the directories, and nothing else that was not there. -/
structure Made (dest : Path) (entries : List (WalkEntry × Nat))
    (before after : Scene (Files Component)) : Prop where
  written : after.written = before.written
  kept : ∀ place node, before.outside place = some node → after.outside place = some node
  made : ∀ entry ∈ entries, entry.1.kind = .directory →
    after.outside (targetOf dest entry.1) = some .directory

theorem disk_makeDirectories {entries : List (WalkEntry × Nat)} {tally : Tally}
    {before after : Scene (Files Component)} {result : Result Tally}
    (inside : ∀ entry ∈ entries, components dest <+: targetOf dest entry.1)
    (bare : Bare (components dest) before.outside)
    (ran : Runs (inScene (onDisk fs contents))
      (Filesystem.makeDirectories dest options entries tally) before result after) :
    ∃ later, result = .ok later ∧
      Counts tally later (entries.countP fun entry => entry.1.kind = .directory) ∧
      Made dest entries before after := by
  induction entries generalizing tally before with
  | nil =>
    obtain ⟨rfl, rfl⟩ := runs_done.mp ran
    exact ⟨tally, rfl, ⟨rfl, rfl⟩, rfl, fun _ _ there => there, by simp⟩
  | cons numbered rest ih =>
    obtain ⟨entry, position⟩ := numbered
    have onward := fun {tally before} => @ih tally before
      fun other member => inside other (List.mem_cons_of_mem _ member)
    rw [Filesystem.makeDirectories] at ran
    by_cases directory : entry.kind = .directory
    · rw [if_neg (not_not.mpr directory)] at ran
      obtain ⟨between, counted, ran⟩ := disk_settled
        (fun stats => by simp only [handled]; omega) (fun _ _ made => disk_call rfl made) ran
      obtain ⟨later, same, more, written, kept, made⟩ := onward bare.createDirAll ran
      refine ⟨later, same, ?_, written, ?_, ?_⟩
      · rw [List.countP_cons_of_pos (by simpa using directory), Nat.add_comm]
        exact counted.trans more
      · exact fun place node there => kept place node (Files.createDirAll_kept _ there)
      · intro other member kind
        rcases List.mem_cons.mp member with rfl | member
        · exact kept _ _ (Files.createDirAll_self _ (bare _ (inside _ (by simp))))
        · exact made other member kind
    · rw [if_pos directory] at ran
      obtain ⟨later, same, counted, written, kept, made⟩ := onward bare ran
      refine ⟨later, same, by simpa [directory] using counted, written, kept, ?_⟩
      intro other member kind
      rcases List.mem_cons.mp member with rfl | member
      · exact absurd kind directory
      · exact made other member kind

end Directories

/-- What has to be where an entry is extracted to. -/
def wanted (fs : Filesystem) (contents : UInt32 → Bytes) (entry : WalkEntry) : Option FileNode :=
  match entry.kind with
  | .directory => some .directory
  | .regular => some (.file (fileBytes fs contents entry.inode))
  | .symlink =>
    match fs.readLink entry.inode with
    | .ok link => some (.symlink link)
    | .error _ => none
  | _ => none

def Extracted (fs : Filesystem) (contents : UInt32 → Bytes) (dest : Path) (tree : Files Component)
    (entry : WalkEntry) : Prop :=
  ∀ node, wanted fs contents entry = some node → tree (targetOf dest entry) = some node

/-- Entries with a place of their own each, the files and symlinks of which can be read. -/
structure Selection (fs : Filesystem) (contents : UInt32 → Bytes) (dest : Path)
    (selected : List WalkEntry) : Prop where
  distinct : selected.Pairwise fun one other => targetOf dest one ≠ targetOf dest other
  inside : ∀ entry ∈ selected, components dest <+: targetOf dest entry
  files : ∀ entry ∈ selected, entry.kind = .regular → Intact fs contents entry.inode ∧
    ∃ content, fs.contentId entry.inode = .ok content
  links : ∀ entry ∈ selected, entry.kind = .symlink →
    ∃ link, fs.readLink entry.inode = .ok link

section Selections

variable {fs : Filesystem} {contents : UInt32 → Bytes} {dest : Path} {options : ExtractOptions}
  {selected : List WalkEntry} (selection : Selection fs contents dest selected)
include selection

theorem Selection.apart {one other : WalkEntry} (first : one ∈ selected) (second : other ∈ selected)
    (same : targetOf dest one = targetOf dest other) : one = other := by
  have symm : Std.Symm fun one other => targetOf dest one ≠ targetOf dest other :=
    ⟨fun _ _ differs => Ne.symm differs⟩
  by_contra differs
  exact selection.distinct.forall first second differs same

/-- What is done for one entry leaves the others as they were. -/
theorem Selection.step {before after : Files Component} {entry : WalkEntry} (member : entry ∈ selected)
    (spares : Files.Spares (targetOf dest entry) before after)
    (done : Extracted fs contents dest after entry) {other : WalkEntry} (also : other ∈ selected)
    (earlier : Extracted fs contents dest before other) :
    Extracted fs contents dest after other := by
  by_cases same : targetOf dest other = targetOf dest entry
  · rw [selection.apart also member same]
    exact done
  · exact fun node wants => spares _ node same (earlier node wants)

end Selections

section Writers

variable {fs : Filesystem} {contents : UInt32 → Bytes} {dest : Path} {options : ExtractOptions}
  {selected : List WalkEntry}

/-- What phase 2 leaves. -/
structure Wrote (fs : Filesystem) (contents : UInt32 → Bytes) (dest : Path)
    (writers : List (WalkEntry × Nat)) (results : List (Result Nat))
    (joined : Scene (Files Component)) : Prop where
  returned : ∀ result ∈ results, ∃ bytes, result = .ok bytes
  named : ∀ writer ∈ writers, ∀ content, fs.contentId writer.1.inode = .ok content →
    joined.written content = some (targetOf dest writer.1)
  files : ∀ writer ∈ writers, Extracted fs contents dest joined.outside writer.1

theorem wrote_of_interleaves (derived : Derived fs) {writers : List (WalkEntry × Nat)}
    (distinct : writers.Pairwise fun one other =>
      fs.contentId one.1.inode ≠ fs.contentId other.1.inode)
    (apart : writers.Pairwise fun one other => targetOf dest one.1 ≠ targetOf dest other.1)
    (files : ∀ writer ∈ writers, writer.1.kind = .regular ∧ Intact fs contents writer.1.inode ∧
      ∃ content, fs.contentId writer.1.inode = .ok content)
    {ready joined : Scene (Files Component)} {results : List (Result Nat)}
    (wrote : Interleaves (inScene (onDisk fs contents))
      (writers.map fun writer => writeOne fs dest writer.1) ready results joined) :
    Wrote fs contents dest writers results joined := by
  have each : results.length = writers.length := by
    simpa using interleaves_length wrote
  have ended : ∀ (i : Nat) (writer : WalkEntry × Nat), writers[i]? = some writer →
      results[i]? = some (.ok (fileBytes fs contents writer.1.inode).length) ∧
        joined.outside (targetOf dest writer.1) =
          some (.file (fileBytes fs contents writer.1.inode)) := by
    intro i writer here
    obtain ⟨_, intact, content, known⟩ := files writer (List.mem_of_getElem? here)
    exact written_file derived apart wrote here intact known
  refine ⟨?_, ?_, ?_⟩
  · intro result member
    obtain ⟨i, inside, rfl⟩ := List.mem_iff_getElem.mp member
    have here := List.getElem?_eq_getElem (each ▸ inside)
    have found := (ended i _ here).1
    rw [List.getElem?_eq_getElem inside, Option.some.injEq] at found
    exact ⟨_, found⟩
  · intro writer member content known
    obtain ⟨i, here⟩ := List.mem_iff_getElem?.mp member
    exact written_of_interleaves distinct wrote here known (ended i writer here).1
  · intro writer member node wants
    obtain ⟨i, here⟩ := List.mem_iff_getElem?.mp member
    rw [(ended i writer here).2]
    rw [wanted, (files writer member).1] at wants
    exact wants

/-- The writers leave a directory where it is. -/
theorem interleaves_directory {writers : List (WalkEntry × Nat)} {place : Place}
    (elsewhere : ∀ writer ∈ writers, place ≠ targetOf dest writer.1)
    {ready joined : Scene (Files Component)} {results : List (Result Nat)}
    (wrote : Interleaves (inScene (onDisk fs contents))
      (writers.map fun writer => writeOne fs dest writer.1) ready results joined)
    (there : ready.outside place = some .directory) : joined.outside place = some .directory := by
  let keeps (scene : Scene (Files Component)) : Prop := scene.outside place = some .directory
  suffices kept : keeps joined from kept
  refine interleaves_keeps ?_ (askOwn_writers fs dest writers) wrote there
  rintro j before question answer after ⟨writer, here, may⟩ answers kept
  have distinct := elsewhere writer (List.mem_of_getElem? here)
  cases question with
  | insert content place =>
    obtain ⟨_, rfl⟩ := answers
    exact kept
  | createDirAll parent =>
    obtain ⟨⟨same, _⟩, _⟩ := answers
    exact (congrFun same place).trans (Files.createDirAll_kept _ kept)
  | create target =>
    obtain ⟨⟨same, _⟩, _⟩ := answers
    cases may
    exact (congrFun same place).trans ((Files.put_other _ _ distinct).trans kept)
  | writeAll target bytes =>
    obtain ⟨⟨same, _⟩, _⟩ := answers
    cases may
    exact (congrFun same place).trans ((Files.append_other _ _ distinct).trans kept)
  | readInto inode offset buf =>
    obtain ⟨⟨same, _⟩, _⟩ := answers
    exact (congrFun same place).trans kept
  | hardLink _ _ | copy _ _ | symlink _ _ => cases may

/-- All the results of phase 2 are counted. -/
theorem gather_counts {outcomes : List ((WalkEntry × Nat) × Except Error Nat)} (tally : Tally)
    (clean : ∀ outcome ∈ outcomes, ∃ bytes, outcome.2 = .ok bytes) :
    ∃ later, Filesystem.gather options outcomes tally = .ok later ∧
      Counts tally later outcomes.length := by
  induction outcomes generalizing tally with
  | nil => exact ⟨tally, rfl, rfl, rfl⟩
  | cons first rest ih =>
    obtain ⟨⟨entry, position⟩, outcome⟩ := first
    obtain ⟨bytes, same⟩ := clean _ List.mem_cons_self
    simp only at same
    subst same
    have one : ∀ stats : ExtractStats,
        handled { stats with files := stats.files + 1 } = handled stats + 1 := by
      intro stats
      simp only [handled]
      omega
    obtain ⟨between, settled, counted⟩ := @settle_counts options tally position _ one
    obtain ⟨later, gathered, more⟩ := ih between fun other member =>
      clean other (List.mem_cons_of_mem _ member)
    refine ⟨later, ?_, ?_⟩
    · rw [Filesystem.gather]
      exact (congrArg (· >>= _) settled).trans gathered
    · rw [List.length_cons, Nat.add_comm]
      exact counted.trans more

end Writers

section Others

variable {fs : Filesystem} {contents : UInt32 → Bytes} {dest : Path} {options : ExtractOptions}
  {selected : List WalkEntry}

/-- Whether the map names the entry's own file. -/
def own (fs : Filesystem) (dest : Path) (written : UInt32 → Option Place) (entry : WalkEntry) : Bool :=
  match entry.kind, fs.contentId entry.inode with
  | .regular, .ok content => written content = some (targetOf dest entry)
  | _, _ => false

/-- What phase 3 has to do something for. -/
def left (fs : Filesystem) (dest : Path) (written : UInt32 → Option Place) (entry : WalkEntry) : Bool :=
  entry.kind ≠ .directory && !own fs dest written entry

/-- The map names, for every file, one with its content. -/
def Names (fs : Filesystem) (contents : UInt32 → Bytes) (dest : Path) (selected : List WalkEntry)
    (written : UInt32 → Option Place) (tree : Files Component) : Prop :=
  ∀ entry ∈ selected, entry.kind = .regular → ∀ content, fs.contentId entry.inode = .ok content →
    ∃ first ∈ selected, first.kind = .regular ∧ fs.contentId first.inode = .ok content ∧
      written content = some (targetOf dest first) ∧ Extracted fs contents dest tree first

/-- What phase 3 leaves. -/
structure Others (fs : Filesystem) (contents : UInt32 → Bytes) (dest : Path)
    (selected : List WalkEntry) (entries : List (WalkEntry × Nat))
    (written : UInt32 → Option Place) (tally : Tally) (before after : Files Component)
    (result : Result Tally) : Prop where
  returned : ∃ later, result = .ok later ∧
    Counts tally later (entries.countP fun entry => left fs dest written entry.1)
  kept : ∀ entry ∈ selected, Extracted fs contents dest before entry →
    Extracted fs contents dest after entry
  placed : ∀ entry ∈ entries, entry.1.kind ≠ .directory → Extracted fs contents dest after entry.1

/-- An entry for which nothing is left to do. -/
theorem Others.skip {entry : WalkEntry × Nat} {entries : List (WalkEntry × Nat)}
    {written : UInt32 → Option Place} {tally between : Tally} {before after : Files Component}
    {result : Result Tally} (member : entry.1 ∈ selected)
    (nothing : left fs dest written entry.1 = false) (counted : Counts tally between 0)
    (done : entry.1.kind ≠ .directory → Extracted fs contents dest before entry.1)
    (others : Others fs contents dest selected entries written between before after result) :
    Others fs contents dest selected (entry :: entries) written tally before after result := by
  obtain ⟨⟨later, same, more⟩, kept, placed⟩ := others
  refine ⟨⟨later, same, ?_⟩, kept, ?_⟩
  · rw [List.countP_cons_of_neg (by simp [nothing])]
    simpa using counted.trans more
  · intro other listed kind
    rcases List.mem_cons.mp listed with rfl | listed
    · exact kept _ member (done kind)
    · exact placed other listed kind

/-- An entry that is handled now. -/
theorem Others.cons (selection : Selection fs contents dest selected) {entry : WalkEntry × Nat}
    {entries : List (WalkEntry × Nat)} {written : UInt32 → Option Place} {tally between : Tally}
    {before middle after : Files Component} {result : Result Tally} (member : entry.1 ∈ selected)
    (something : left fs dest written entry.1 = true) (counted : Counts tally between 1)
    (spares : Files.Spares (targetOf dest entry.1) before middle)
    (done : Extracted fs contents dest middle entry.1)
    (others : Others fs contents dest selected entries written between middle after result) :
    Others fs contents dest selected (entry :: entries) written tally before after result := by
  obtain ⟨⟨later, same, more⟩, kept, placed⟩ := others
  refine ⟨⟨later, same, ?_⟩, ?_, ?_⟩
  · rw [List.countP_cons_of_pos (p := fun entry : WalkEntry × Nat => left fs dest written entry.1)
      something, Nat.add_comm]
    exact counted.trans more
  · exact fun other also earlier =>
      kept other also (selection.step member spares done also earlier)
  · intro other listed kind
    rcases List.mem_cons.mp listed with rfl | listed
    · exact kept _ member done
    · exact placed other listed kind

theorem disk_placeOthers (selection : Selection fs contents dest selected)
    {entries : List (WalkEntry × Nat)} {written : UInt32 → Option Place} {tally : Tally}
    {before after : Scene (Files Component)} {result : Result Tally}
    (all : ∀ entry ∈ entries, entry.1 ∈ selected)
    (names : Names fs contents dest selected written before.outside)
    (ran : Runs (inScene (onDisk fs contents))
      (fs.placeOthers dest options entries written tally) before result after) :
    Others fs contents dest selected entries written tally before.outside after.outside result := by
  induction entries generalizing tally before with
  | nil =>
    obtain ⟨rfl, rfl⟩ := runs_done.mp ran
    exact ⟨⟨tally, rfl, rfl, rfl⟩, fun _ _ done => done, by simp⟩
  | cons numbered rest ih =>
    obtain ⟨entry, position⟩ := numbered
    have member : entry ∈ selected := all _ List.mem_cons_self
    have onward := fun {tally before} => @ih tally before
      fun other listed => all other (List.mem_cons_of_mem _ listed)
    have further : ∀ {middle : Files Component},
        Files.Spares (targetOf dest entry) before.outside middle →
        Extracted fs contents dest middle entry → Names fs contents dest selected written middle := by
      intro middle spares done other also regular content known
      obtain ⟨first, listed, kind, same, named, earlier⟩ := names other also regular content known
      exact ⟨first, listed, kind, same, named, selection.step member spares done listed earlier⟩
    rw [Filesystem.placeOthers] at ran
    cases kind : entry.kind with
    | directory =>
      simp only [kind] at ran
      exact .skip member (by simp [left, kind]) ⟨rfl, rfl⟩ (fun other => absurd kind other)
        (onward names ran)
    | regular =>
      obtain ⟨content, known⟩ := (selection.files entry member kind).2
      obtain ⟨first, listed, firstKind, firstKnown, named, there⟩ :=
        names entry member kind content known
      simp only [kind, known, Prog.lift_ok_bind, named] at ran
      by_cases here : targetOf dest first = targetOf dest entry
      · rw [if_pos here] at ran
        have same := selection.apart listed member here
        subst same
        refine .skip member ?_ ?_ (fun _ => there) (onward names ran)
        · simp [left, own, kind, known, named]
        · exact ⟨rfl, rfl⟩
      · have something : left fs dest written entry = true := by
          simp [left, own, kind, known, named, here]
        have source : before.outside (targetOf dest first) =
            some (.file (fileBytes fs contents entry.inode)) := by
          rw [fileBytes_of_contentId known firstKnown]
          exact there _ (by rw [wanted, firstKind])
        have linked : ∀ {tree : Files Component},
            tree (targetOf dest first) = before.outside (targetOf dest first) →
            Extracted fs contents dest
              (tree.link (targetOf dest first) (targetOf dest entry)) entry := by
          intro tree same node wants
          rw [wanted, kind] at wants
          rw [Files.link_self, same, source]
          exact wants
        rw [if_neg here] at ran
        by_cases link : options.hardlinkShared
        · rw [if_pos link] at ran
          obtain ⟨later, counted, ran⟩ := disk_settled
            (fun stats => by simp only [handled]; omega)
            (fun _ _ made => disk_call_below rfl made) ran
          have parent := spares_withParent (targetOf dest entry) before.outside
          have spares := parent.trans (Files.spares_link (targetOf dest first) _ _)
          have done := linked ((parent _ _ here source).trans source.symm)
          exact .cons selection member something counted spares done
            (onward (further spares done) ran)
        · rw [if_neg link] at ran
          obtain ⟨later, counted, ran⟩ := disk_settled
            (fun stats => by simp only [handled]; omega) (fun _ _ made => disk_call rfl made) ran
          have spares := Files.spares_link (targetOf dest first) (targetOf dest entry) before.outside
          have done := linked (Eq.refl (before.outside (targetOf dest first)))
          exact .cons selection member something counted spares done
            (onward (further spares done) ran)
    | symlink =>
      obtain ⟨target, known⟩ := selection.links entry member kind
      simp only [kind] at ran
      obtain ⟨later, counted, ran⟩ := disk_settled
        (fun stats => by simp only [handled]; omega) (fun _ _ made => by
          rw [writeSymlink, known, Prog.lift_ok_bind] at made
          exact disk_call_below rfl made) ran
      have spares := (spares_withParent (targetOf dest entry) before.outside).trans
        (Files.spares_put (targetOf dest entry) _ (.symlink target))
      have done : Extracted fs contents dest ((withParent before.outside (targetOf dest entry)).put
          (targetOf dest entry) (.symlink target)) entry := by
        intro node wants
        simp only [wanted, kind, known] at wants
        rw [Files.put_self]
        exact wants
      exact .cons selection member (by simp [left, own, kind]) counted spares done
        (onward (further spares done) ran)
    | charDevice | blockDevice | fifo | socket | unknown =>
      obtain ⟨later, settled, counted⟩ := @settle_counts options tally position
        (fun stats => { stats with skipped := stats.skipped + 1 })
        (fun stats => by simp only [handled]; omega)
      simp only [kind, settled, Prog.lift_ok_bind] at ran
      have done : Extracted fs contents dest before.outside entry := by
        intro node wants
        simp [wanted, kind] at wants
      have spares := Files.Spares.refl (targetOf dest entry) before.outside
      exact .cons selection member (by simp [left, own, kind]) counted spares done
        (onward (further spares done) ran)

end Others

section Counting

variable {fs : Filesystem} {contents : UInt32 → Bytes} {dest : Path} {selected : List WalkEntry}

/-- Every entry is a directory, a file of phase 2 or left for phase 3, and only one of these. -/
theorem countP_parts (written : UInt32 → Option Place) (entries : List (WalkEntry × Nat)) :
    entries.countP (fun entry => entry.1.kind = .directory) +
      entries.countP (fun entry => own fs dest written entry.1) +
      entries.countP (fun entry => left fs dest written entry.1) = entries.length := by
  induction entries with
  | nil => rfl
  | cons entry rest ih =>
    simp only [List.countP_cons, List.length_cons]
    by_cases directory : entry.1.kind = .directory
    · have notOwn : own fs dest written entry.1 = false := by simp [own, directory]
      have notLeft : left fs dest written entry.1 = false := by simp [left, directory]
      simp only [directory, notOwn, notLeft, decide_true, Bool.false_eq_true, if_true, if_false]
      omega
    · have otherwise : left fs dest written entry.1 = !own fs dest written entry.1 := by
        simp [left, directory]
      rw [otherwise]
      cases own fs dest written entry.1 <;> simp [directory] <;> omega

theorem pairwise_zipIdx {R : WalkEntry → WalkEntry → Prop} (distinct : selected.Pairwise R) :
    selected.zipIdx.Pairwise fun one other => R one.1 other.1 := by
  rw [← List.zipIdx_map_fst 0 selected, List.pairwise_map] at distinct
  exact distinct

theorem nodup_zipIdx (selected : List WalkEntry) : selected.zipIdx.Nodup := by
  refine List.Nodup.of_map Prod.snd ?_
  rw [List.zipIdx_map_snd]
  exact List.nodup_range'

/-- The writers are the files that the map names as their own. -/
theorem writers_count (selection : Selection fs contents dest selected)
    {writers : List (WalkEntry × Nat)} (chosen : Chosen fs [] selected.zipIdx writers)
    {written : UInt32 → Option Place}
    (named : ∀ writer ∈ writers, ∀ content, fs.contentId writer.1.inode = .ok content →
      written content = some (targetOf dest writer.1)) :
    selected.zipIdx.countP (fun entry => own fs dest written entry.1) = writers.length := by
  have nodup := nodup_zipIdx selected
  rw [List.countP_eq_length_filter]
  refine List.Perm.length_eq ((List.perm_ext_iff_of_nodup (nodup.filter _)
    (chosen.sublist.nodup nodup)).mpr ?_)
  intro entry
  rw [List.mem_filter]
  constructor
  · rintro ⟨member, mine⟩
    unfold own at mine
    split at mine
    · rename_i content regular known
      obtain ⟨id, found, old | ⟨writer, listed, same⟩⟩ := chosen.covers entry member regular
      · cases old
      · rw [known, Except.ok.injEq] at found
        subst found
        rw [named writer listed content same, decide_eq_true_eq, Option.some.injEq] at mine
        have symm : Std.Symm fun one other : WalkEntry × Nat =>
            targetOf dest one.1 ≠ targetOf dest other.1 := ⟨fun _ _ differs => Ne.symm differs⟩
        have equal : writer = entry := by
          by_contra differs
          exact (pairwise_zipIdx selection.distinct).forall (chosen.sublist.subset listed) member
            differs mine
        exact equal ▸ listed
    · cases mine
  · intro listed
    obtain ⟨content, known, _⟩ := chosen.fresh entry listed
    refine ⟨chosen.sublist.subset listed, ?_⟩
    simp [own, chosen.regular entry listed, known, named entry listed content known]

end Counting

end Rdwarfs.Guarantees.PlacedEntries
