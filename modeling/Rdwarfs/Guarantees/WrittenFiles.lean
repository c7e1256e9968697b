import Rdwarfs.Guarantees.CacheTransparency
import Rdwarfs.Guarantees.ExtractRuns
import Rdwarfs.Guarantees.ListCaps
import Rdwarfs.Lib.FileTree

/-!
# What a writer leaves behind

An image whose blocks decode has one content for every file, and one for every content id; a
read answers with it whatever threads share the block cache. In a world where every call of the
operating system succeeds, a writer then returns and its file holds the content, whichever other
writers take turns with it.
-/
namespace Rdwarfs.Guarantees.WrittenFiles

open Lib.Machine Lib.Oracle Lib.Oracle.Prog Lib.UnixPath Lib.Interleaving Lib.FileTree
open Source Source.Fs Source.Codecs Source.Metadata Extraction
open BlockReads OpenedFilesystem ReadContract CacheTransparency ExtractRuns ListCaps

section Content

variable (fs : Filesystem) (contents : UInt32 → Bytes)

/-- The bytes of a file over the decoded blocks. -/
def fileBytes (inode : UInt32) : Bytes :=
  match fs.chunkRange inode with
  | .ok (start, stop) => contentOf fs contents ((fs.chunks.drop start).take (stop - start))
  | .error _ => []

/-- A regular file whose chunks are where they say. -/
structure Intact (inode : UInt32) : Prop where
  regular : fs.kind inode = .ok .regular
  chunks : ∃ start stop, fs.chunkRange inode = .ok (start, stop) ∧
    ∀ chunk ∈ (fs.chunks.drop start).take (stop - start), Fits fs contents chunk

/-- How a read ends that the block cache answers, shared or not. -/
def Served (inode : UInt32) (offset : Nat) (buf : Bytes) (outcome : Result (Nat × Bytes)) : Prop :=
  Yields (Permits fs contents) (fs.readInto inode offset buf) outcome

variable {fs contents}

/-- Every thread that comes to the end of a read in a shared cache was served. -/
theorem served_of_finished {libs : Libraries} {budget : Nat} (decodes : DecodesTo libs fs contents)
    {s : Shared} (reachable : Shared.Reachable libs fs budget s) {t : Nat} {inode : UInt32}
    {offset : Nat} {buf : Bytes} {outcome : Result (Nat × Bytes)} {pc : Pc}
    (here : s.threads t = some ⟨fs.readInto inode offset buf, .done outcome, pc⟩) :
    Served fs contents inode offset buf outcome :=
  ((sound_of_reachable decodes reachable).threads t _ here).residual outcome (.done outcome)

variable (derived : Derived fs) {inode : UInt32}
include derived

theorem Intact.size (intact : Intact fs contents inode) :
    fs.fileSize inode = .ok (fileBytes fs contents inode).length ∧
      (fileBytes fs contents inode).length < wordLimit := by
  obtain ⟨start, stop, range, fits⟩ := intact.chunks
  obtain ⟨ends, runs, same, count, _, _⟩ := runs_of_chunkRange derived range
  have word := (contentOf_bound runs (by decide) fits).1
  rw [Nat.zero_add] at word
  simp only [fileBytes, range]
  exact ⟨fileSize_eq intact.regular range runs same count fits, word⟩

/-- A read fills its buffer from the content. -/
theorem Intact.served (intact : Intact fs contents inode) {offset : Nat} (word : offset < wordLimit)
    {buf : Bytes} {outcome : Result (Nat × Bytes)}
    (served : Served fs contents inode offset buf outcome) :
    ∃ wanted, wanted = ((fileBytes fs contents inode).drop offset).take buf.length ∧
      outcome = .ok (wanted.length, wanted ++ buf.drop wanted.length) := by
  obtain ⟨start, stop, range, fits⟩ := intact.chunks
  have same := readInto_determined inode offset buf outcome served
  rw [readOutcome_eq derived intact.regular range fits word buf] at same
  simp only [fileBytes, range]
  exact ⟨_, rfl, same⟩

/-- `read_file` returns the content, unless there is no vector as long. -/
theorem Intact.readFile {libs : Libraries} (decodes : DecodesTo libs fs contents)
    (intact : Intact fs contents inode) :
    fs.readFile libs inode = some (allocate (fileBytes fs contents inode).length >>= fun _ =>
      .ok (fileBytes fs contents inode)) := by
  have size := (intact.size derived).1
  obtain ⟨start, stop, range, fits⟩ := intact.chunks
  generalize content : fileBytes fs contents inode = bytes at size
  obtain ⟨after, ran, _⟩ := readInto_alone decodes (2 * fs.blockSize.toNat) serves_empty inode 0
    (List.replicate bytes.length 0)
  rw [readOutcome_eq derived intact.regular range fits (by decide)] at ran
  have same : contentOf fs contents ((fs.chunks.drop start).take (stop - start)) = bytes := by
    rw [← content]
    simp only [fileBytes, range]
  rw [same, List.drop_zero, List.length_replicate, List.take_length] at ran
  have whole : ∃ cache, (fs.readAt inode 0 bytes.length).run
      (fs.decodeBlock libs (2 * fs.blockSize.toNat)) .empty =
        some (allocate bytes.length >>= fun _ => .ok bytes, cache) := by
    unfold Filesystem.readAt
    rw [size, lift_ok_bind, Nat.sub_zero, Nat.min_self]
    dsimp only
    cases allocate bytes.length with
    | error failure => exact ⟨_, rfl⟩
    | ok _ =>
      rw [lift_ok_bind, run_bind_ok ran, ok_bind]
      exact ⟨after, by simp [Prog.run]⟩
  obtain ⟨cache, whole⟩ := whole
  simp [Filesystem.readFile, size, whole]

end Content

section ContentIds

variable {fs : Filesystem}

theorem contentId_eq_ok {inode content : UInt32} :
    fs.contentId inode = .ok content ↔ fs.chunkTableSlot inode = .ok content.toNat := by
  simp only [Filesystem.contentId, bind_eq_ok, refuseIf_eq_ok, pure_eq_ok, Except.ok.injEq]
  constructor
  · rintro ⟨slot, found, _, small, rfl⟩
    rw [u32Max] at small
    rw [found, UInt32.toNat_ofNat', Nat.mod_eq_of_lt (by omega)]
  · intro found
    have small := content.toNat_lt
    exact ⟨_, found, (), by rw [u32Max]; omega, UInt32.ofNat_toNat⟩

/-- One content id, one content. -/
theorem fileBytes_of_contentId {contents : UInt32 → Bytes} {one other content : UInt32}
    (first : fs.contentId one = .ok content) (second : fs.contentId other = .ok content) :
    fileBytes fs contents one = fileBytes fs contents other := by
  have range : fs.chunkRange one = fs.chunkRange other := by
    rw [Filesystem.chunkRange, Filesystem.chunkRange, contentId_eq_ok.mp first,
      contentId_eq_ok.mp second]
  rw [fileBytes, fileBytes, range]

theorem chunkTable_read {m : Metadata.Metadata} {tables : Tables}
    (read : readTables m = .ok tables) : m.chunkTableRaw = .ok tables.chunkTable := by
  iterate 12 obtain ⟨_, _, read⟩ := bind_eq_ok.mp read
  obtain ⟨table, raw, read⟩ := bind_eq_ok.mp read
  iterate 11 obtain ⟨_, _, read⟩ := bind_eq_ok.mp read
  cases read
  exact raw

/-- The chunk table is no longer than a list may be. -/
theorem chunkTable_length {libs : Libraries} {build : Build} {image : Format.Image}
    (opened : Filesystem.openImage libs build image = .ok fs) :
    fs.chunkTable.length ≤ defaultListCap := by
  obtain ⟨tables, read, made⟩ := openImage_eq_ok.mp opened
  obtain ⟨m, _, read⟩ := bind_eq_ok.mp read
  have short : tables.chunkTable.length ≤ defaultListCap :=
    readU32List_length (chunkTable_read read)
  simp only [Filesystem.ofTables, bind_eq_ok] at made
  obtain ⟨offsets, _, chunkEnd, _, done⟩ := made
  cases done
  simp only
  split
  · rw [inclusivePrefixSumU32, prefixSumFrom_length]
    exact short
  · exact short

/-- Every file with chunks has a content id. -/
theorem contentId_of_chunkRange {libs : Libraries} {build : Build} {image : Format.Image}
    (opened : Filesystem.openImage libs build image = .ok fs) {inode : UInt32} {range : Nat × Nat}
    (accepted : fs.chunkRange inode = .ok range) : ∃ content, fs.contentId inode = .ok content := by
  have short := chunkTable_length opened
  simp only [Filesystem.chunkRange, bind_eq_ok, refuseIf_eq_ok, Arith.add_checked_eq_ok] at accepted
  obtain ⟨slot, found, next, ⟨_, rfl⟩, _, inside, _⟩ := accepted
  rw [defaultListCap] at short
  have small : ¬ slot > u32Max := by
    rw [u32Max]
    omega
  exact ⟨UInt32.ofNat slot, by rw [Filesystem.contentId, found, ok_bind, refuseIf_of_not small]; rfl⟩

end ContentIds

section Worlds

variable (fs : Filesystem) (contents : UInt32 → Bytes)

/-- What a call does to the tree when it succeeds. -/
def effect : Request → Files Component → Files Component
  | .createDirAll place, tree => tree.createDirAll place
  | .create place, tree => tree.put place (.file [])
  | .writeAll place bytes, tree => tree.append place bytes
  | .hardLink source target, tree => tree.link source target
  | .copy source target, tree => tree.link source target
  | .symlink link target, tree => tree.put target (.symlink link)
  | .readInto _ _ _, tree => tree
  | .insert _ _, tree => tree

/-- A world in which every call succeeds and every read is served. -/
def onDisk : World Request Reply (Files Component) := fun before request reply after =>
  after = effect request before ∧
    match request with
    | .readInto inode offset buf =>
      ∃ outcome, reply = .read outcome ∧ Served fs contents inode offset buf outcome
    | _ => reply = .succeeded

/-- The same for one file, as the only one there is. -/
def fileAlone (target : Place) : World Request Reply (Option Bytes)
  | before, .create place, reply, after =>
    reply = .succeeded ∧ after = if place = target then some [] else before
  | before, .writeAll place bytes, reply, after =>
    reply = .succeeded ∧ after = if place = target then before.map (· ++ bytes) else before
  | before, .readInto inode offset buf, reply, after =>
    (∃ outcome, reply = .read outcome ∧ Served fs contents inode offset buf outcome) ∧
      after = before
  | before, _, reply, after => reply = .succeeded ∧ after = before

variable {fs contents} {dest : Path}

/-- A writer whose file no other writer has. -/
theorem separate_file {writers : List (WalkEntry × Nat)}
    (apart : writers.Pairwise fun one other => targetOf dest one.1 ≠ targetOf dest other.1) {i : Nat}
    {writer : WalkEntry × Nat} (here : writers[i]? = some writer) :
    Separate (inScene (onDisk fs contents)) (fileAlone fs contents (targetOf dest writer.1))
      (fun scene => scene.outside.fileAt (targetOf dest writer.1)) (Own fs dest writers) i where
  mine := by
    rintro before question answer after ⟨other, there, may⟩ answers
    rw [here, Option.some.injEq] at there
    subst there
    cases question with
    | insert content place =>
      obtain ⟨rfl, rfl⟩ := answers
      exact ⟨rfl, rfl⟩
    | createDirAll place =>
      obtain ⟨⟨same, rfl⟩, _⟩ := answers
      exact ⟨rfl, by rw [same, effect, Files.fileAt_createDirAll]⟩
    | create place =>
      obtain ⟨⟨same, rfl⟩, _⟩ := answers
      cases may
      exact ⟨rfl, by simp [same, effect]⟩
    | writeAll place bytes =>
      obtain ⟨⟨same, rfl⟩, _⟩ := answers
      cases may
      exact ⟨rfl, by simp [same, effect, Files.fileAt_append_self]⟩
    | readInto inode offset buf =>
      obtain ⟨⟨same, served⟩, _⟩ := answers
      exact ⟨served, by rw [same, effect]⟩
    | hardLink _ _ | copy _ _ | symlink _ _ => cases may
  others := by
    rintro j before question answer after differs ⟨other, there, may⟩ answers
    have distinct : targetOf dest writer.1 ≠ targetOf dest other.1 :=
      Ne.symm (apart_of_pairwise apart here there differs)
    cases question with
    | insert content place =>
      obtain ⟨_, rfl⟩ := answers
      rfl
    | createDirAll place =>
      obtain ⟨⟨same, _⟩, _⟩ := answers
      simp only [same, effect, Files.fileAt_createDirAll]
    | create place =>
      obtain ⟨⟨same, _⟩, _⟩ := answers
      cases may
      simp only [same, effect, Files.fileAt_put_other _ _ distinct]
    | writeAll place bytes =>
      obtain ⟨⟨same, _⟩, _⟩ := answers
      cases may
      simp only [same, effect, Files.fileAt_append_other _ _ distinct]
    | readInto inode offset buf =>
      obtain ⟨⟨same, _⟩, _⟩ := answers
      simp only [same, effect]
    | hardLink _ _ | copy _ _ | symlink _ _ => cases may

end Worlds

section Alone

variable {fs : Filesystem} {contents : UInt32 → Bytes} {target : Place} {inode : UInt32}
  {before after : Option Bytes}

theorem alone_call {request : Request} {result : Result Unit}
    (ran : Runs (fileAlone fs contents target) (call request) before result after)
    (asks : ∀ reply after, fileAlone fs contents target before request reply after →
      reply = .succeeded) :
    result = .ok () ∧ fileAlone fs contents target before request .succeeded after := by
  obtain ⟨reply, answers, ⟨rfl, same⟩ | ⟨other, _⟩⟩ := runs_call.mp ran
  · exact ⟨same, answers⟩
  · exact absurd (asks reply after answers) other

/-- The loop of `write_regular` ends with the whole content in the file. -/
theorem alone_writeFrom (derived : Derived fs) (intact : Intact fs contents inode) {offset : Nat}
    {buf : Bytes} {result : Result Unit} (room : 0 < buf.length)
    (within : offset ≤ (fileBytes fs contents inode).length)
    (ran : Runs (fileAlone fs contents target)
      (writeFrom inode target (fileBytes fs contents inode).length offset buf)
      (some ((fileBytes fs contents inode).take offset)) result after) :
    result = .ok () ∧ after = some (fileBytes fs contents inode) := by
  have word := (intact.size derived).2
  generalize left : (fileBytes fs contents inode).length - offset = rest
  induction rest using Nat.strongRecOn generalizing offset buf with
  | ind rest ih =>
    rw [writeFrom] at ran
    by_cases more : offset < (fileBytes fs contents inode).length
    · rw [dif_pos more] at ran
      obtain ⟨reply, between, ⟨⟨outcome, rfl, served⟩, rfl⟩, ran⟩ := runs_ask.mp ran
      obtain ⟨wanted, window, rfl⟩ := intact.served derived (Nat.lt_trans more word) served
      have count := congrArg List.length window
      rw [List.length_take, List.length_drop] at count
      have some_ : wanted.length ≠ 0 := by omega
      simp only [dif_neg some_] at ran
      have front : (slice (wanted ++ buf.drop wanted.length) 0 wanted.length : Result Bytes) =
          .ok wanted := by
        rw [slice_of_le (Nat.zero_le _) (by simp)]
        simp
      rw [front, Prog.lift_ok_bind] at ran
      rcases runs_bind.mp ran with ⟨_, between, wrote, ran⟩ | ⟨failure, wrote, _⟩
      · obtain ⟨_, _, same⟩ := alone_call wrote fun _ _ answers => answers.1
        have sum : (addWord offset wanted.length : Result Nat) = .ok (offset + wanted.length) :=
          addWord_of_lt (by omega)
        rw [if_pos rfl, Option.map_some] at same
        rw [sum, Prog.lift_ok_bind, same] at ran
        have further : (fileBytes fs contents inode).take offset ++ wanted =
            (fileBytes fs contents inode).take (offset + wanted.length) := by
          rw [List.take_add]
          congr 1
          conv_lhs => rw [window]
          rw [List.take_eq_take_iff, List.length_drop]
          omega
        rw [further] at ran
        exact ih _ (by omega) (by simp; omega) (by omega) ran rfl
      · have clean := (alone_call wrote fun _ _ answers => answers.1).1
        cases clean
    · rw [dif_neg more] at ran
      obtain ⟨rfl, rfl⟩ := runs_done.mp ran
      rw [List.take_of_length_le (by omega)]
      exact ⟨rfl, rfl⟩

theorem alone_createParent {result : Result Unit}
    (ran : Runs (fileAlone fs contents target) (createParent target) before result after) :
    result = .ok () ∧ after = before := by
  unfold createParent at ran
  split at ran
  · obtain ⟨same, _, kept⟩ := alone_call ran fun _ _ answers => answers.1
    exact ⟨same, kept⟩
  · obtain ⟨rfl, rfl⟩ := runs_done.mp ran
    exact ⟨rfl, rfl⟩

theorem alone_writeRegular (derived : Derived fs) (intact : Intact fs contents inode)
    {result : Result Nat}
    (ran : Runs (fileAlone fs contents target) (writeRegular fs inode target) before result after) :
    result = .ok (fileBytes fs contents inode).length ∧
      after = some (fileBytes fs contents inode) := by
  rcases runs_bind.mp ran with ⟨_, between, parent, ran⟩ | ⟨failure, parent, _⟩
  · rcases runs_bind.mp ran with ⟨_, opened, created, ran⟩ | ⟨failure, created, _⟩
    · obtain ⟨_, _, same⟩ := alone_call created fun _ _ answers => answers.1
      rw [if_pos rfl] at same
      rw [(intact.size derived).1, Prog.lift_ok_bind] at ran
      have empty : some ((fileBytes fs contents inode).take 0) = opened := same.symm
      have room : ∀ size, 0 < (List.replicate (min (2 ^ 20) (max size 1)) (0 : UInt8)).length := by
        intro size
        rw [List.length_replicate]
        omega
      rw [← empty] at ran
      rcases runs_bind.mp ran with ⟨_, later, filled, ran⟩ | ⟨failure, filled, _⟩
      · obtain ⟨_, rfl⟩ := alone_writeFrom derived intact (room _) (Nat.zero_le _) filled
        obtain ⟨rfl, rfl⟩ := runs_done.mp ran
        exact ⟨rfl, rfl⟩
      · cases (alone_writeFrom derived intact (room _) (Nat.zero_le _) filled).1
    · cases (alone_call created fun _ _ answers => answers.1).1
  · cases (alone_createParent parent).1

theorem alone_writeOne (derived : Derived fs) {dest : Path} {entry : WalkEntry}
    (intact : Intact fs contents entry.inode) {content : UInt32}
    (known : fs.contentId entry.inode = .ok content) {result : Result Nat}
    (ran : Runs (fileAlone fs contents (targetOf dest entry)) (writeOne fs dest entry) before result
      after) :
    result = .ok (fileBytes fs contents entry.inode).length ∧
      after = some (fileBytes fs contents entry.inode) := by
  rcases runs_bind.mp ran with ⟨count, between, wrote, ran⟩ | ⟨failure, wrote, _⟩
  · obtain ⟨same, rfl⟩ := alone_writeRegular derived intact wrote
    cases same
    rw [known, Prog.lift_ok_bind] at ran
    obtain ⟨_, _, ⟨_, rfl⟩, ran⟩ := runs_ask.mp ran
    obtain ⟨rfl, rfl⟩ := runs_done.mp ran
    exact ⟨rfl, rfl⟩
  · cases (alone_writeRegular derived intact wrote).1

end Alone

/-- Whatever the order of their turns, every writer returns and has written its content. -/
theorem written_file {fs : Filesystem} {contents : UInt32 → Bytes} (derived : Derived fs)
    {dest : Path} {writers : List (WalkEntry × Nat)}
    (apart : writers.Pairwise fun one other => targetOf dest one.1 ≠ targetOf dest other.1)
    {ready joined : Scene (Files Component)} {results : List (Result Nat)}
    (wrote : Interleaves (inScene (onDisk fs contents))
      (writers.map fun writer => writeOne fs dest writer.1) ready results joined)
    {i : Nat} {writer : WalkEntry × Nat} (here : writers[i]? = some writer)
    (intact : Intact fs contents writer.1.inode) {content : UInt32}
    (known : fs.contentId writer.1.inode = .ok content) :
    results[i]? = some (.ok (fileBytes fs contents writer.1.inode).length) ∧
      joined.outside (targetOf dest writer.1) =
        some (.file (fileBytes fs contents writer.1.inode)) := by
  have program : (writers.map fun writer => writeOne fs dest writer.1)[i]? =
      some (writeOne fs dest writer.1) := by
    rw [List.getElem?_map, here, Option.map_some]
  obtain ⟨result, found, alone⟩ :=
    (separate_file apart here).runs (askOwn_writers fs dest writers) wrote program
  obtain ⟨rfl, file⟩ := alone_writeOne derived intact known alone
  exact ⟨found, Files.fileAt_eq_some.mp file⟩

end Rdwarfs.Guarantees.WrittenFiles
