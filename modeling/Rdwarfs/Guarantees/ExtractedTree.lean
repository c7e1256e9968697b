import Rdwarfs.Guarantees.PlacedEntries
import Rdwarfs.Guarantees.Selections

/-!
# The tree that an extraction leaves

The phases one after another: every entry of the selection is at its own place, as a
directory, a file with the bytes of the image or a symlink, and is counted once. Nothing but
a panic of the pattern matcher keeps an intact image from that.
-/
namespace Rdwarfs.Guarantees.ExtractedTree

open Lib.Machine Lib.Oracle Lib.UnixPath Lib.Interleaving Lib.FileTree
open Source Source.Fs Source.Codecs Source.Metadata Extraction
open BlockReads OpenedFilesystem ReadContract ExtractContainment ExtractRuns WrittenFiles
open PlacedEntries Selections

section Runs

variable {fs : Filesystem} {contents : UInt32 → Bytes} {dest : Path} {options : ExtractOptions}
  {entries selected : List WalkEntry}

/-- Nothing ends the run before phase 2. -/
theorem no_early_end (selection : Selection fs contents dest selected)
    (chosen : options.select entries = .ok selected) {before stopped : Scene (Files Component)}
    {failure : Failure Error} (bare : Bare (components dest) before.outside)
    (prepared : Runs (inScene (onDisk fs contents)) (fs.prepare dest options (.ok entries)) before
      (.error failure) stopped) : False := by
  have inside : ∀ entry ∈ selected.zipIdx, components dest <+: targetOf dest entry.1 :=
    fun entry member => selection.inside _ (List.fst_mem_of_mem_zipIdx member)
  rcases runs_prepare_error chosen prepared with called | ⟨between, called, made | stopped⟩
  · cases (disk_call rfl called).1
  · obtain ⟨_, rfl⟩ := disk_call rfl called
    obtain ⟨_, absurd_, _⟩ := disk_makeDirectories inside bare.createDirAll made
    cases absurd_
  · obtain ⟨entry, member, regular, known⟩ := firstWriters_eq_error stopped
    obtain ⟨_, content, found⟩ :=
      selection.files entry.1 (List.fst_mem_of_mem_zipIdx member) regular
    rw [known] at found
    cases found

section Written

variable {writers ordered : List (WalkEntry × Nat)} (first : Chosen fs [] selected.zipIdx writers)
  (perm : ordered.Perm writers) {ready joined : Scene (Files Component)}
  {results : List (Result Nat)}

include first perm

/-- The directories of phase 1 stand after phase 2, which writes files elsewhere. -/
theorem directories_of_wrote (selection : Selection fs contents dest selected)
    (made : ∀ entry ∈ selected.zipIdx, entry.1.kind = .directory →
      ready.outside (targetOf dest entry.1) = some .directory)
    (wrote : Interleaves (inScene (onDisk fs contents))
      (ordered.map fun writer => writeOne fs dest writer.1) ready results joined) :
    ∀ entry ∈ selected, entry.kind = .directory →
      Extracted fs contents dest joined.outside entry := by
  intro entry listed kind node wants
  rw [wanted, kind] at wants
  cases wants
  obtain ⟨k, here⟩ := List.mem_iff_getElem?.mp listed
  refine interleaves_directory (fun writer also same => ?_) wrote
    (made (entry, k) (List.mem_zipIdx_iff_getElem?.mpr here) kind)
  have chosen := perm.subset also
  have member := List.fst_mem_of_mem_zipIdx (first.sublist.subset chosen)
  have equal := selection.apart listed member same
  rw [equal, first.regular writer chosen] at kind
  cases kind

/-- For every content of the selection the map then names a file that has it. -/
theorem names_of_wrote (wrote : Wrote fs contents dest ordered results joined) :
    Names fs contents dest selected joined.written joined.outside := by
  intro entry listed kind content known
  obtain ⟨k, here⟩ := List.mem_iff_getElem?.mp listed
  obtain ⟨id, found, old | ⟨writer, also, same⟩⟩ :=
    first.covers (entry, k) (List.mem_zipIdx_iff_getElem?.mpr here) kind
  · cases old
  · rw [known, Except.ok.injEq] at found
    subst found
    have member := List.fst_mem_of_mem_zipIdx (first.sublist.subset also)
    have done := perm.symm.subset also
    exact ⟨writer.1, member, first.regular writer also, same, wrote.named writer done _ same,
      wrote.files writer done⟩

end Written

/-- The three phases leave every entry of the selection extracted, and count each once. -/
theorem extracted_of_whole (derived : Derived fs) (selection : Selection fs contents dest selected)
    (chosen : options.select entries = .ok selected) {before : Files Component}
    (bare : Bare (components dest) before) {plan : Plan}
    {ready joined final : Scene (Files Component)}
    {writes : List (Result Nat)} {outcome : Result Tally}
    (prepared : Runs (inScene (onDisk fs contents)) (fs.prepare dest options (.ok entries))
      ⟨before, fun _ => none⟩ (.ok plan) ready)
    (wrote : Interleaves (inScene (onDisk fs contents)) (plan.writers.map fun writer =>
      writeOne fs dest writer.1) ready writes joined)
    (completed : Runs (inScene (onDisk fs contents))
      (fs.complete dest options plan writes joined.written) joined outcome final) :
    (∃ stats, (outcome >>= Tally.conclude) = .ok stats ∧ handled stats = selected.length) ∧
      ∀ entry ∈ selected, Extracted fs contents dest final.outside entry := by
  obtain ⟨picked, writers, between, same, called, made, found, listed, sorted⟩ :=
    runs_prepare_ok prepared
  rw [chosen, Except.ok.injEq] at same
  subst same
  have inside : ∀ entry ∈ selected.zipIdx, components dest <+: targetOf dest entry.1 :=
    fun entry member => selection.inside _ (List.fst_mem_of_mem_zipIdx member)
  obtain ⟨_, rfl⟩ := disk_call rfl called
  obtain ⟨made_, started, countedOne, _, _, directories⟩ :=
    disk_makeDirectories inside bare.createDirAll made
  cases started
  have first := chosen_of_firstWriters found
  have perm : plan.writers.Perm writers := sorted ▸ List.mergeSort_perm ..
  -- phase 2
  have apart : plan.writers.Pairwise fun one other => targetOf dest one.1 ≠ targetOf dest other.1 :=
    (perm.pairwise_iff fun differs => Ne.symm differs).mpr
      ((pairwise_zipIdx selection.distinct).sublist first.sublist)
  have readable : ∀ writer ∈ plan.writers, writer.1.kind = .regular ∧
      Intact fs contents writer.1.inode ∧
        ∃ content, fs.contentId writer.1.inode = .ok content := by
    intro writer listed
    have chosen := perm.subset listed
    have regular := first.regular writer chosen
    have member := List.fst_mem_of_mem_zipIdx (first.sublist.subset chosen)
    exact ⟨regular, selection.files _ member regular⟩
  have done := wrote_of_interleaves derived (first.perm perm) apart readable wrote
  have standing := directories_of_wrote first perm selection directories wrote
  -- phase 3
  rcases runs_lift_bind.mp completed with ⟨outcomes, collected, placed⟩ | ⟨_, stopped, _, _⟩
  · obtain rfl := collect_attempt collected
    have each : outcomes.length = plan.writers.length := by
      simpa using interleaves_length wrote
    have clean : ∀ outcome ∈ plan.writers.zip outcomes, ∃ bytes, outcome.2 = .ok bytes := by
      intro outcome listed
      obtain ⟨bytes, same⟩ := done.returned _ (List.mem_map_of_mem (List.of_mem_zip listed).2)
      exact ⟨bytes, returned_inj same⟩
    obtain ⟨tally, gathered, countedTwo⟩ := @gather_counts options _ plan.tally clean
    rw [gathered, Prog.lift_ok_bind, listed] at placed
    obtain ⟨⟨later, ended, countedThree⟩, kept, others⟩ := disk_placeOthers selection
      (fun entry listed => List.fst_mem_of_mem_zipIdx listed)
      (names_of_wrote first perm done) placed
    have counted := (countedOne.trans countedTwo).trans countedThree
    have writersCount := writers_count selection first fun writer listed =>
      done.named writer (perm.symm.subset listed)
    have parts := @countP_parts fs dest joined.written selected.zipIdx
    refine ⟨⟨later.stats, ?_, ?_⟩, ?_⟩
    · rw [ended, ok_bind, Tally.conclude, refuseIf_of_not (by rw [counted.errors]; decide)]
      rfl
    · rw [counted.handled]
      rw [writersCount, List.length_zipIdx] at parts
      rw [List.length_zip, each, Nat.min_self, perm.length_eq]
      simp only [handled]
      omega
    · intro entry listed
      by_cases kind : entry.kind = .directory
      · exact kept entry listed (standing entry listed kind)
      · obtain ⟨k, here⟩ := List.mem_iff_getElem?.mp listed
        exact others (entry, k) (List.mem_zipIdx_iff_getElem?.mpr here) kind
  · obtain ⟨_, stuck⟩ := collect_attempt_error stopped
    obtain ⟨bytes, absurd_⟩ := done.returned _ stuck
    cases absurd_

/-- An extraction does not end before it has written, and leaves the selection extracted. -/
theorem extracted_of_extracts (derived : Derived fs) (selection : Selection fs contents dest selected)
    (chosen : options.select entries = .ok selected) {before after : Files Component}
    (bare : Bare (components dest) before) {writes : List (Result Nat)} {outcome : Result Tally}
    (ran : Extracts (onDisk fs contents) fs dest options (.ok entries) before writes outcome
      after) :
    (∃ stats, (outcome >>= Tally.conclude) = .ok stats ∧ handled stats = selected.length) ∧
      ∀ entry ∈ selected, Extracted fs contents dest after entry := by
  cases ran with
  | early prepared => exact (no_early_end selection chosen bare prepared).elim
  | whole prepared wrote completed =>
    exact extracted_of_whole derived selection chosen bare prepared wrote completed

end Runs

section Extraction

variable {fs : Filesystem} {contents : UInt32 → Bytes}

/-- A listing says of every entry what its inode is. -/
theorem kind_of_readDir {directory : UInt32} {entries : List Listing}
    (read : fs.readDir directory = .ok entries) :
    ∀ entry ∈ entries, fs.kind entry.inode = .ok entry.kind := by
  simp only [Filesystem.readDir, bind_eq_ok, collect_eq_ok] at read
  obtain ⟨_, _, _, _, range, _, listed⟩ := read
  generalize List.range' range.1 (range.2 - range.1) = places at listed
  induction listed with
  | nil => simp
  | cons made _ ih =>
    rw [List.forall_mem_cons]
    refine ⟨?_, ih⟩
    simp only [Filesystem.listEntry, bind_eq_ok, pure_eq_ok, Except.ok.injEq] at made
    obtain ⟨found, _, name, _, kind, known, rfl⟩ := made
    exact known

theorem walk_kind {depth : Nat} {walked : List WalkEntry}
    (done : fs.walk depth = some (.ok walked)) :
    ∀ visited ∈ walked, fs.kind visited.inode = .ok visited.kind := by
  refine @walk_preserves fs (fun _ _ => True) _ ?_ _ _ trivial (fun _ root => root) done
  intro path inode entries _ read entry member
  exact ⟨kind_of_readDir read entry member, trivial⟩

/-- What there is to read for an entry can be read: the chunks of a file lie in their blocks,
and a symlink has a target. -/
structure Legible (fs : Filesystem) (contents : UInt32 → Bytes) (entry : WalkEntry) : Prop where
  file : entry.kind = .regular → ∃ start stop, fs.chunkRange entry.inode = .ok (start, stop) ∧
    ∀ chunk ∈ (fs.chunks.drop start).take (stop - start), Fits fs contents chunk
  link : entry.kind = .symlink → ∃ link, fs.readLink entry.inode = .ok link

/-- What is taken of a walk whose paths are plain and apart has places of its own, and can be
read. -/
theorem selection_of_walk {libs : Libraries} {build : Build} {image : Format.Image}
    (opened : Filesystem.openImage libs build image = .ok fs) {depth : Nat}
    {entries selected : List WalkEntry} (walked : fs.walk depth = some (.ok entries))
    (distinct : (entries.map (·.path)).Nodup) (plain : ∀ entry ∈ entries, Plain entry.path)
    (sub : selected.Sublist entries) (legible : ∀ entry ∈ selected, Legible fs contents entry)
    (dest : Path) : Selection fs contents dest selected := by
  refine ⟨?_, ?_, ?_, fun entry member => (legible entry member).link⟩
  · have apart : entries.Pairwise fun one other => one.path ≠ other.path :=
      List.pairwise_map.mp distinct
    refine (apart.sublist sub).imp_of_mem ?_
    intro one other first second differs same
    exact differs (targetOf_injective dest (plain _ (sub.subset first))
      (plain _ (sub.subset second)) same)
  · exact fun entry member => targetOf_inside dest (plain _ (sub.subset member))
  · intro entry member regular
    obtain ⟨start, stop, range, fits⟩ := (legible entry member).file regular
    refine ⟨⟨?_, start, stop, range, fits⟩, contentId_of_chunkRange opened range⟩
    rw [walk_kind walked entry (sub.subset member), regular]

end Extraction

section Inputs

def namedWalk : List WalkEntry := [⟨[], 0, .directory⟩, ⟨[47, 97, 98, 99, 100], 1, .regular⟩]

theorem walk_namedImage : named.walk 1 = some (.ok namedWalk) := by decide

theorem namedWalk_plain : ∀ entry ∈ namedWalk, Plain entry.path := by
  intro entry member
  simp only [namedWalk, List.mem_cons, List.not_mem_nil, or_false] at member
  rcases member with rfl | rfl
  · exact ⟨[], rfl, by simp⟩
  · refine ⟨[[97, 98, 99, 100]], rfl, fun name listed => ?_⟩
    rw [List.mem_singleton.mp listed]
    exact ⟨by simp, by decide, by decide, by decide⟩

theorem namedWalk_legible : ∀ entry ∈ namedWalk, Legible named (fun _ => helloBlock) entry := by
  intro entry member
  simp only [namedWalk, List.mem_cons, List.not_mem_nil, or_false] at member
  rcases member with rfl | rfl
  · exact ⟨by simp, by simp⟩
  · refine ⟨fun _ => ⟨0, 2, by decide, ?_⟩, by simp⟩
    unfold Fits
    decide

/-- The pattern `a*`. -/
def starred : ExtractOptions := ⟨false, true, [[97, 42]]⟩

/-- The pattern `[a`, a class without its end. -/
def unclosed : ExtractOptions := ⟨false, true, [[0x5B, 97]]⟩

end Inputs

end Rdwarfs.Guarantees.ExtractedTree
