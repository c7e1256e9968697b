import Rdwarfs.Guarantees.ExtractedTree
import Rdwarfs.Guarantees.IncludeFilter
import Rdwarfs.Guarantees.TarFidelity
import Rdwarfs.Source.Dwarfsck

/-!
# Checksums of the files of an image

The algorithm is looked up for every chunk of a file and once more after the last. A file without
chunks goes by the first lookup, and the second takes an unknown name for impossible. Where the
name is known the chunks, fed or collected, are the content.
-/
namespace Rdwarfs.Guarantees.FileChecksums

open Lib.Machine Source Source.Metadata Source.Fs Source.Codecs Source.Dwarfsck
open OpenedFilesystem FileContents

section Definitions

variable (hashes : Hashes) (fs : Filesystem) (contents : UInt32 → Bytes)

/-- The digest of a whole content. -/
def digest (algorithm : Algorithm) (content : Bytes) : String :=
  match algorithm with
  | .sha256 => hexEncode (hashes.sha256 content)
  | .sha512 => hexEncode (hashes.sha512 content)
  | .xxh364 => paddedHex 16 (hashes.xxh3_64 content).toNat
  | .xxh3128 => paddedHex 32 (hashes.xxh3_128 content).toNat

/-- The line of a file: its digest, two blanks and its path without the first slash. -/
def line (algorithm : Algorithm) (file : WalkEntry) : Bytes :=
  Lib.Utf8.encode (digest hashes algorithm (fileContent fs contents file.inode)) ++ [0x20, 0x20] ++
    stripSlash file.path ++ [0x0A]

def regularFiles (entries : List WalkEntry) : List WalkEntry :=
  entries.filter fun entry => entry.kind = .regular

/-- A regular file of a walk has a path, and an inode of its kind. -/
def Placed (entry : WalkEntry) : Prop :=
  entry.kind = .regular → entry.path ≠ [] ∧ fs.kind entry.inode = .ok .regular

/-- What has been fed to the digest once a content was read. -/
def fed (algorithm : Algorithm) (content : Bytes) : Updates :=
  match algorithm with
  | .sha256 => { Updates.new with sha256 := content }
  | .sha512 => { Updates.new with sha512 := content }
  | .xxh364 => { Updates.new with buf64 := content }
  | .xxh3128 => { Updates.new with buf128 := content }

end Definitions

section Lookups

variable {alg : String} {algorithm : Algorithm}

theorem update_fed (named : Algorithm.named alg = some algorithm) (taken chunk : Bytes) :
    (fed algorithm taken).update alg chunk = .ok (fed algorithm (taken ++ chunk)) := by
  rw [Updates.update, named]
  cases algorithm <;> rfl

theorem digestHex_fed (named : Algorithm.named alg = some algorithm) (hashes : Hashes)
    (content : Bytes) :
    (fed algorithm content).digestHex hashes alg = .ok (digest hashes algorithm content) := by
  rw [Updates.digestHex, named]
  cases algorithm <;> rfl

theorem fed_nil (algorithm : Algorithm) : fed algorithm [] = .new := by cases algorithm <;> rfl

end Lookups

section Files

variable {fs : Filesystem} {libs : Libraries} {contents : UInt32 → Bytes} {alg : String}
  (derived : Derived fs) (decodes : DecodesWithin libs fs contents)

include derived decodes

/-- Known to the first lookup, the algorithm is fed the content, in whatever chunks. -/
theorem updateAll_known {algorithm : Algorithm} (named : Algorithm.named alg = some algorithm)
    {inode : UInt32} {offset : Nat} {cache : Inner} (stocked : Stocked contents cache) :
    ∃ result after, updateAll fs libs alg inode (fileContent fs contents inode).length offset
        (fed algorithm ((fileContent fs contents inode).take offset)) cache = some (result, after) ∧
      Stocked contents after ∧
      ((∃ failure, result = .error (.unread failure)) ∨
        result = .ok (fed algorithm (fileContent fs contents inode))) := by
  have word := @fileContent_lt fs contents derived inode
  generalize rest : (fileContent fs contents inode).length - offset = left
  induction left using Nat.strongRecOn generalizing offset cache with
  | ind left ih =>
    rw [updateAll]
    by_cases more : offset < (fileContent fs contents inode).length
    · obtain ⟨result, after, ran, kept, shown⟩ := readAt_run derived decodes (checksumBudget fs)
        stocked inode (by omega : offset < wordLimit) chunkSize
      rw [if_pos more, ran]
      cases result with
      | error failure => exact ⟨_, after, rfl, kept, Or.inl ⟨failure, rfl⟩⟩
      | ok chunk =>
        obtain ⟨_, window⟩ := shown chunk rfl
        have size := congrArg List.length window
        rw [List.length_take, List.length_drop, chunkSize] at size
        have some_ : chunk ≠ [] := List.length_pos_iff.mp (by omega)
        have further : (fileContent fs contents inode).take offset ++ chunk =
            (fileContent fs contents inode).take (offset + chunk.length) := by
          have front : chunk <+: (fileContent fs contents inode).drop offset :=
            window ▸ List.take_prefix _ _
          rw [List.take_add, ← List.prefix_iff_eq_take.mp front]
        simp only [update_fed named, if_neg some_, further]
        exact ih _ (by omega) kept rfl
    · rw [if_neg more, List.take_of_length_le (Nat.le_of_not_lt more)]
      exact ⟨_, cache, rfl, stocked, Or.inr rfl⟩

omit derived in
/-- The first chunk of a file shows that an algorithm is unknown. -/
theorem updateAll_unknown (unknown : Algorithm.named alg = none) {inode : UInt32} {size : Nat}
    (some_ : 0 < size) {cache : Inner} (stocked : Stocked contents cache) :
    ∃ ending after, updateAll fs libs alg inode size 0 .new cache = some (.error ending, after) ∧
      ((∃ failure, ending = .unread failure) ∨ ending = unknownAlgorithm alg) := by
  obtain ⟨result, after, ran, _, _⟩ := Lib.Oracle.Prog.run_yields
    (decodeBlock_shows decodes (checksumBudget fs)) (fs.readAt inode 0 chunkSize) cache stocked
  rw [updateAll, if_pos some_, ran]
  cases result with
  | error failure => exact ⟨_, after, rfl, Or.inl ⟨failure, rfl⟩⟩
  | ok chunk =>
    simp only [Updates.update, unknown]
    exact ⟨_, after, rfl, Or.inr rfl⟩

/-- One regular file: it is not read to the end, it gets its line, or it is too large. -/
theorem checksumFile_known {algorithm : Algorithm} (named : Algorithm.named alg = some algorithm)
    (hashes : Hashes) {file : WalkEntry} (regular : fs.kind file.inode = .ok .regular) {cache : Inner}
    (stocked : Stocked contents cache) :
    ∃ result after, checksumFile fs libs hashes alg file cache = some (result, after) ∧
      Stocked contents after ∧
      ((∃ failure, result = .error (.unread failure)) ∨
        ((fileContent fs contents file.inode).length < sliceLimit ∧
          result = .ok (line hashes fs contents algorithm file)) ∨
        (sliceLimit ≤ (fileContent fs contents file.inode).length ∧ result = .error .panicked)) := by
  unfold checksumFile
  cases known : fs.fileSize file.inode with
  | error failure => exact ⟨_, cache, rfl, stocked, Or.inl ⟨failure, rfl⟩⟩
  | ok size =>
    obtain rfl := size_of_regular contents derived regular known
    simp only [withCapacity]
    by_cases fits : (fileContent fs contents file.inode).length < sliceLimit
    · obtain ⟨result, after, ran, kept, ends⟩ :=
        @updateAll_known fs libs contents alg derived decodes _ named file.inode 0 _ stocked
      rw [List.take_zero, fed_nil] at ran
      simp only [if_pos fits, ran]
      rcases ends with ⟨failure, rfl⟩ | rfl
      · exact ⟨_, after, rfl, kept, Or.inl ⟨failure, rfl⟩⟩
      · simp only [digestHex_fed named]
        exact ⟨_, after, rfl, kept, Or.inr (Or.inl ⟨fits, rfl⟩)⟩
    · simp only [if_neg fits]
      exact ⟨_, cache, rfl, stocked, Or.inr (Or.inr ⟨Nat.le_of_not_lt fits, rfl⟩)⟩

/-- Only a chunk, and the room to collect it, leads to the refusal. -/
theorem checksumFile_unknown (unknown : Algorithm.named alg = none) (hashes : Hashes)
    {file : WalkEntry} (regular : fs.kind file.inode = .ok .regular) {cache : Inner}
    (stocked : Stocked contents cache) :
    ∃ ending after, checksumFile fs libs hashes alg file cache = some (.error ending, after) ∧
      ((∃ failure, ending = .unread failure) ∨
        ((fileContent fs contents file.inode ≠ [] ∧
            (fileContent fs contents file.inode).length < sliceLimit) ∧
          ending = unknownAlgorithm alg) ∨
        (¬ (fileContent fs contents file.inode ≠ [] ∧
            (fileContent fs contents file.inode).length < sliceLimit) ∧ ending = .panicked)) := by
  unfold checksumFile
  cases known : fs.fileSize file.inode with
  | error failure => exact ⟨_, cache, rfl, Or.inl ⟨failure, rfl⟩⟩
  | ok size =>
    obtain rfl := size_of_regular contents derived regular known
    simp only [withCapacity]
    by_cases fits : (fileContent fs contents file.inode).length < sliceLimit
    · rw [if_pos fits]
      by_cases empty : fileContent fs contents file.inode = []
      · rw [empty, List.length_nil, updateAll, if_neg (Nat.lt_irrefl 0)]
        simp only [Updates.digestHex, unknown]
        exact ⟨_, cache, rfl, Or.inr (Or.inr ⟨by simp, rfl⟩)⟩
      · obtain ⟨ending, after, ran, ends⟩ := @updateAll_unknown fs libs contents alg decodes unknown
          file.inode _ (List.length_pos_iff.mpr empty) _ stocked
        simp only [ran]
        exact ⟨_, after, rfl, ends.imp_right fun refused => Or.inl ⟨⟨empty, fits⟩, refused⟩⟩
    · simp only [if_neg fits]
      exact ⟨_, cache, rfl, Or.inr (Or.inr ⟨fun both => fits both.2, rfl⟩)⟩

theorem checksumEntries_known {algorithm : Algorithm} (named : Algorithm.named alg = some algorithm)
    (hashes : Hashes) {entries : List WalkEntry} (placed : ∀ entry ∈ entries, Placed fs entry)
    {cache : Inner} (stocked : Stocked contents cache) (out : Bytes) :
    ∃ printed ending, checksumEntries fs libs hashes alg entries cache out = some (printed, ending) ∧
      ((∃ failure, ending = .unread failure) ∨
        ((∀ file ∈ regularFiles entries,
            (fileContent fs contents file.inode).length < sliceLimit) ∧
          printed = out ++ (regularFiles entries).flatMap (line hashes fs contents algorithm) ∧
          ending = .done) ∨
        ((∃ file ∈ regularFiles entries,
            sliceLimit ≤ (fileContent fs contents file.inode).length) ∧ ending = .panicked)) := by
  induction entries generalizing cache out with
  | nil => exact ⟨out, .done, rfl, Or.inr (Or.inl ⟨by simp [regularFiles], by simp [regularFiles], rfl⟩)⟩
  | cons entry rest ih =>
    have later := fun other member => placed other (List.mem_cons_of_mem _ member)
    rw [checksumEntries]
    by_cases regular : entry.kind = .regular
    · obtain ⟨path, kind⟩ := placed entry List.mem_cons_self regular
      have files : regularFiles (entry :: rest) = entry :: regularFiles rest :=
        List.filter_cons_of_pos (by simpa using regular)
      rw [if_neg (by simp [regular, path]), files]
      obtain ⟨result, after, ran, kept, ends⟩ :=
        checksumFile_known derived decodes named hashes kind stocked
      rw [ran]
      rcases ends with ⟨failure, rfl⟩ | ⟨fits, rfl⟩ | ⟨large, rfl⟩
      · exact ⟨out, _, rfl, Or.inl ⟨failure, rfl⟩⟩
      · obtain ⟨printed, ending, onward, ends⟩ :=
          ih later kept (out ++ line hashes fs contents algorithm entry)
        refine ⟨printed, ending, onward, ?_⟩
        rcases ends with unread | ⟨all, rfl, rfl⟩ | ⟨⟨file, member, large⟩, rfl⟩
        · exact Or.inl unread
        · refine Or.inr (Or.inl ⟨?_, by simp, rfl⟩)
          rw [List.forall_mem_cons]
          exact ⟨fits, all⟩
        · exact Or.inr (Or.inr ⟨⟨file, List.mem_cons_of_mem _ member, large⟩, rfl⟩)
      · exact ⟨out, _, rfl, Or.inr (Or.inr ⟨⟨entry, List.mem_cons_self, large⟩, rfl⟩)⟩
    · have files : regularFiles (entry :: rest) = regularFiles rest :=
        List.filter_cons_of_neg (by simpa using regular)
      rw [if_pos (Or.inl regular), files]
      exact ih later stocked out

theorem checksumEntries_unknown (unknown : Algorithm.named alg = none) (hashes : Hashes)
    {entries : List WalkEntry} (placed : ∀ entry ∈ entries, Placed fs entry) {cache : Inner}
    (stocked : Stocked contents cache) (out : Bytes) :
    ∃ ending, checksumEntries fs libs hashes alg entries cache out = some (out, ending) ∧
      match (regularFiles entries).head? with
      | none => ending = .done
      | some file => (∃ failure, ending = .unread failure) ∨
        ((fileContent fs contents file.inode ≠ [] ∧
            (fileContent fs contents file.inode).length < sliceLimit) ∧
          ending = unknownAlgorithm alg) ∨
        (¬ (fileContent fs contents file.inode ≠ [] ∧
            (fileContent fs contents file.inode).length < sliceLimit) ∧ ending = .panicked) := by
  induction entries with
  | nil => exact ⟨.done, rfl, rfl⟩
  | cons entry rest ih =>
    rw [checksumEntries]
    by_cases regular : entry.kind = .regular
    · obtain ⟨path, kind⟩ := placed entry List.mem_cons_self regular
      have files : regularFiles (entry :: rest) = entry :: regularFiles rest :=
        List.filter_cons_of_pos (by simpa using regular)
      obtain ⟨ending, after, ran, ends⟩ :=
        checksumFile_unknown derived decodes unknown hashes kind stocked
      rw [if_neg (by simp [regular, path]), files, ran]
      exact ⟨ending, rfl, ends⟩
    · have files : regularFiles (entry :: rest) = regularFiles rest :=
        List.filter_cons_of_neg (by simpa using regular)
      rw [if_pos (Or.inl regular), files]
      exact ih fun other member => placed other (List.mem_cons_of_mem _ member)

end Files

/-- A known algorithm gets its lines, in the order of the walk; any other is refused before
anything is printed. -/
def Answers (fs : Filesystem) (libs : Libraries) (hashes : Hashes) (contents : UInt32 → Bytes)
    (alg : String) (depth : Nat) (files : List WalkEntry) : Prop :=
  match Algorithm.named alg with
  | some algorithm => printChecksums fs libs hashes alg depth =
      some (files.flatMap (line hashes fs contents algorithm), .done)
  | none => files ≠ [] → printChecksums fs libs hashes alg depth = some ([], unknownAlgorithm alg)

/-- Every file can be collected in a buffer; for an unknown algorithm it takes only the first, but
that must not be empty. -/
def Answerable (fs : Filesystem) (contents : UInt32 → Bytes) (alg : String)
    (files : List WalkEntry) : Prop :=
  match Algorithm.named alg with
  | some _ => ∀ file ∈ files, (fileContent fs contents file.inode).length < sliceLimit
  | none => ∀ file, files.head? = some file → fileContent fs contents file.inode ≠ [] ∧
      (fileContent fs contents file.inode).length < sliceLimit

theorem placed_of_walk {fs : Filesystem} {depth : Nat} {entries : List WalkEntry}
    (walked : fs.walk depth = some (.ok entries)) : ∀ entry ∈ entries, Placed fs entry := by
  intro entry member regular
  refine ⟨IncludeFilter.path_of_walk walked entry member (by simp [regular]), ?_⟩
  rw [← regular]
  exact ExtractedTree.walk_kind walked entry member

/-- Where nothing fails to be read, the checksums are printed, or the algorithm refused, exactly
if the files are answerable. The contents are those that `read_file` returns. -/
theorem checksums_iff {fs : Filesystem} {libs : Libraries} {contents : UInt32 → Bytes}
    (derived : Derived fs) (decodes : DecodesWithin libs fs contents) (hashes : Hashes)
    (alg : String) {depth : Nat} {entries : List WalkEntry}
    (walked : fs.walk depth = some (.ok entries))
    (returns : ∀ out failure, printChecksums fs libs hashes alg depth ≠ some (out, .unread failure)) :
    (Answers fs libs hashes contents alg depth (regularFiles entries) ↔
      Answerable fs contents alg (regularFiles entries)) ∧
    ∀ file ∈ regularFiles entries, ∀ bytes, fs.readFile libs file.inode = some (.ok bytes) →
      fileContent fs contents file.inode = bytes := by
  refine ⟨?_, fun file _ bytes read => (readFile_content derived decodes read).2.symm⟩
  have shape : printChecksums fs libs hashes alg depth =
      checksumEntries fs libs hashes alg entries .empty [] := by
    rw [printChecksums, walked]
  have placed := placed_of_walk walked
  unfold Answers Answerable
  rw [shape] at returns ⊢
  cases named : Algorithm.named alg with
  | some algorithm =>
    obtain ⟨printed, ending, ran, ends⟩ :=
      checksumEntries_known derived decodes named hashes placed stocked_empty []
    rw [ran] at returns ⊢
    rcases ends with ⟨failure, rfl⟩ | ⟨all, rfl, rfl⟩ | ⟨⟨file, member, large⟩, rfl⟩
    · exact absurd rfl (returns printed failure)
    · exact iff_of_true rfl all
    · refine iff_of_false (fun same => ?_) fun all => absurd (all file member) (Nat.not_lt.mpr large)
      cases same
  | none =>
    obtain ⟨ending, ran, ends⟩ :=
      checksumEntries_unknown derived decodes named hashes placed stocked_empty []
    rw [ran] at returns ⊢
    cases first : (regularFiles entries).head? with
    | none => exact iff_of_true (fun some_ => absurd (List.head?_eq_none_iff.mp first) some_) (by simp)
    | some file =>
      have some_ : regularFiles entries ≠ [] := by
        rintro empty
        rw [empty] at first
        cases first
      rw [first] at ends
      rcases ends with ⟨failure, rfl⟩ | ⟨answerable, rfl⟩ | ⟨not_, rfl⟩
      · exact absurd rfl (returns [] failure)
      · refine iff_of_true (fun _ => rfl) fun other same => ?_
        cases same
        exact answerable
      · refine iff_of_false (fun same => ?_) fun all => not_ (all file rfl)
        cases same some_

section Inputs

open TarFidelity

/-- Digests that are easily told from each other. -/
def plainHashes : Hashes where
  sha256 bytes := bytes
  sha512 bytes := bytes.reverse
  xxh3_64 bytes := UInt64.ofNat bytes.length
  xxh3_128 bytes := BitVec.ofNat 128 bytes.length

def threeEntries : List WalkEntry := [⟨[], 0, .directory⟩, ⟨[slash, 97], 1, .symlink⟩,
  ⟨[slash, 98], 2, .regular⟩, ⟨[slash, 99], 3, .regular⟩]

theorem three_walked : (three [97, 98, 99] [98]).walk 3 = some (.ok threeEntries) := by
  decide

/-- The content of the empty file has no digits here; that of the other is `hello`. -/
theorem three_printed :
    printChecksums (three [97, 98, 99] [98]) libraries plainHashes "sha256" 3 =
      some (Lib.Utf8.encode "  b\n68656c6c6f  c\n", .done) := by
  decide +kernel

theorem checksums_three :
    Answers (three [97, 98, 99] [98]) libraries plainHashes (fun _ => helloBlock) "sha256" 3
      (regularFiles threeEntries) := by
  have derived := derived_of_ofTables (three_made [97, 98, 99] [98])
  refine (checksums_iff derived (three_decodes _ _) plainHashes "sha256" three_walked
    fun out failure => by rw [three_printed]; simp).1.mpr ?_
  intro file member
  have small {inode : UInt32} {size : Nat}
      (regular : (three [97, 98, 99] [98]).kind inode = .ok .regular)
      (known : (three [97, 98, 99] [98]).fileSize inode = .ok size) (fits : size < sliceLimit) :
      (fileContent (three [97, 98, 99] [98]) (fun _ => helloBlock) inode).length < sliceLimit := by
    rwa [← size_of_regular _ derived regular known]
  rcases List.mem_pair.mp member with rfl | rfl
  · exact @small 2 0 (by decide) (by decide) (by decide)
  · exact @small 3 5 (by decide) (by decide) (by decide)

/-- The first file is empty, and the name of the algorithm is taken for impossible. -/
theorem empty_file_panics :
    (three [97, 98, 99] [98]).walk 3 = some (.ok threeEntries) ∧
      Algorithm.named "md5" = none ∧ regularFiles threeEntries ≠ [] ∧
      printChecksums (three [97, 98, 99] [98]) libraries plainHashes "md5" 3 =
        some ([], .panicked) :=
  ⟨three_walked, by decide, by decide, by decide +kernel⟩

end Inputs

end Rdwarfs.Guarantees.FileChecksums
