import Rdwarfs.Guarantees.CodecOutcomes
import Rdwarfs.Guarantees.FirstSection
import Rdwarfs.Guarantees.PartialDecode
import Rdwarfs.Guarantees.SectionTiling
import Rdwarfs.Guarantees.TamperedSections
import Rdwarfs.Source.Format.Verify

/-!
# What a verified image promises

`verify_all` and `verify_deep` hash each section of an opened image as it lies in the source.
They pass exactly when every section fits its hashes, by one thread or by many; and a section is
hashed again at each load, so that the eager pass fails exactly when some load would.
-/
namespace Rdwarfs.Guarantees.VerifiedImages

open Lib.Machine Lib.TryForEach Lib.Scan Source Source.Format Source.Codecs Source.Format.Image
open SectionTiling DetectEquivalence CodecOutcomes

/-- The records lie end to end from `start` to the end of the bytes. -/
def Chain (bytes : Bytes) : Nat → List SectionRecord → Prop
  | start, [] => bytes.length ≤ start
  | start, record :: later => start < bytes.length ∧ record.fileOffset = start ∧
      sectionAt bytes start = .ok record.header ∧
      Chain bytes (start + (headerLen + record.header.payloadLen.toNat)) later

/-- Header and payload of a section, as the bytes hold it. -/
def stored (bytes : Bytes) (record : SectionRecord) : Bytes :=
  field bytes record.fileOffset (headerLen + record.header.payloadLen.toNat)

section Walks

variable {bytes : Bytes} {build : Build} {source : ImageSource}

theorem walkSections_iff_chain (serves : source.Serves bytes) (fits : bytes.length < sliceLimit)
    {start : Nat} {records : List SectionRecord} :
    walkSections build source start = .ok records ↔ Chain bytes start records := by
  induction records generalizing start with
  | nil =>
    by_cases more : start < bytes.length
    · rw [walkSections_step serves fits more]
      simp only [bind_eq_ok, Chain, Nat.not_le.mpr more, iff_false, not_exists, not_and]
      intro header _ later _ same
      cases same
    · have spent := Nat.le_of_not_lt more
      exact iff_of_true (walkSections_spent serves spent) spent
  | cons first later ih =>
    by_cases more : start < bytes.length
    · rw [walkSections_step serves fits more]
      simp only [bind_eq_ok, Chain]
      constructor
      · intro walked
        obtain ⟨header, read, rest, walked, same⟩ := walked
        cases same
        exact ⟨more, rfl, read, ih.mp walked⟩
      · intro chain
        obtain ⟨-, rfl, read, chain⟩ := chain
        exact ⟨first.header, read, later, ih.mpr chain, rfl⟩
    · rw [walkSections_spent serves (Nat.le_of_not_lt more)]
      exact iff_of_false (fun impossible => nomatch impossible) fun chain => more chain.1

theorem chain_mem {start : Nat} {records : List SectionRecord} (chain : Chain bytes start records)
    {record : SectionRecord} (member : record ∈ records) :
    start ≤ record.fileOffset ∧ sectionAt bytes record.fileOffset = .ok record.header := by
  induction records generalizing start with
  | nil => cases member
  | cons first later ih =>
    obtain ⟨-, rfl, read, chain⟩ := chain
    cases List.mem_cons.mp member with
    | inl same =>
      subst same
      exact ⟨Nat.le_refl _, read⟩
    | inr after =>
      obtain ⟨beyond, reads⟩ := ih chain after
      exact ⟨by omega, reads⟩

theorem chain_of_opened (serves : source.Serves bytes) (fits : bytes.length < sliceLimit)
    {image : Image} (opened : Image.fromSource build source = .ok image) :
    image.source = source ∧ Chain bytes image.baseOffset image.sections := by
  simp only [Image.fromSource, Image.build, bind_eq_ok, pure_eq_ok] at opened
  obtain ⟨base, -, sections, walked, index, -, same⟩ := opened
  cases same
  exact ⟨rfl, (walkSections_iff_chain serves fits).mp walked⟩

theorem opened_inside (serves : source.Serves bytes) (fits : bytes.length < sliceLimit)
    {image : Image} (opened : Image.fromSource build source = .ok image) :
    image.baseOffset + headerLen ≤ bytes.length := by
  simp only [Image.fromSource, Image.build, bind_eq_ok, pure_eq_ok] at opened
  obtain ⟨base, detected, _, -, _, -, same⟩ := opened
  cases same
  change base + headerLen ≤ bytes.length
  have long := IndexAbsence.detected_bound serves detected
  cases serves.contiguous with
  | inl positional =>
    simp only [detectBaseOffsetIn, positional, serves.len_eq, if_neg (Nat.not_lt.mpr long),
      detectWindows_eq_scan long build serves, scan_eq_ok, lastHeaderStart] at detected
    omega
  | inr contiguous =>
    simp only [detectBaseOffsetIn, contiguous] at detected
    exact ((FirstSection.detects_iff fits base).mp detected).1.1

theorem stored_length {record : SectionRecord}
    (read : sectionAt bytes record.fileOffset = .ok record.header) :
    (stored bytes record).length = headerLen + record.header.payloadLen.toNat :=
  field_length (sectionAt_eq_ok read)

/-- A section that was walked reads whole. -/
theorem sectionBytes_eq (serves : source.Serves bytes) (fits : bytes.length < sliceLimit)
    {image : Image} (backed : image.source = source) {record : SectionRecord}
    (read : sectionAt bytes record.fileOffset = .ok record.header) :
    image.sectionBytes record = .ok (stored bytes record) := by
  have whole := sectionAt_eq_ok read
  have saturated := record.header.sectionLen_eq
  rw [sliceLimit_eq] at fits
  have exact_ : record.header.sectionLen = headerLen + record.header.payloadLen.toNat := by
    simp only [headerLen] at whole ⊢
    omega
  rw [Image.sectionBytes, Image.readRange, backed, exact_]
  exact serves.readRange (by rw [sliceLimit_eq]; exact fits) whole

theorem payloadBytes_eq (serves : source.Serves bytes) (fits : bytes.length < sliceLimit)
    {image : Image} (backed : image.source = source) {record : SectionRecord}
    (read : sectionAt bytes record.fileOffset = .ok record.header) :
    image.payloadBytes build record = .ok ((stored bytes record).drop headerLen) := by
  have whole := sectionAt_eq_ok read
  have word := fits
  rw [sliceLimit_eq] at word
  rw [payloadBytes, Arith.add_of_lt _ (by rw [wordLimit_eq]; omega), ok_bind, Image.readRange, backed,
    serves.readRange fits (by omega), stored, field, field, List.drop_take, List.drop_drop,
    Nat.add_sub_cancel_left]

end Walks

section Checks

variable (digests : Digests) (bytes : Bytes) (record : SectionRecord)

def XxhFits : Prop :=
  digests.xxh3_64 ((stored bytes record).drop Integrity.xxhCoverStart) = record.header.xxh3_64

def ShaFits : Prop :=
  digests.sha512_256 ((stored bytes record).drop Integrity.shaCoverStart) = record.header.sha512_256

instance : Decidable (XxhFits digests bytes record) := inferInstanceAs (Decidable (_ = _))

instance : Decidable (ShaFits digests bytes record) := inferInstanceAs (Decidable (_ = _))

def Intact (deep : Bool) : Prop :=
  XxhFits digests bytes record ∧ (deep = true → ShaFits digests bytes record)

/-- What is wrong with a section, the fast hash first. -/
def Damaged (deep : Bool) (failure : Failure Error) : Prop :=
  (¬ XxhFits digests bytes record ∧
    failure = .err (.integrityMismatch record.header.number "xxh3")) ∨
  (XxhFits digests bytes record ∧ deep = true ∧ ¬ ShaFits digests bytes record ∧
    failure = .err (.integrityMismatch record.header.number "sha512_256"))

variable {digests bytes record} {deep : Bool} {build : Build} {source : ImageSource}
  (serves : source.Serves bytes) (fits : bytes.length < sliceLimit) {image : Image}
  (backed : image.source = source) (read : sectionAt bytes record.fileOffset = .ok record.header)

include read in
theorem verifyXxh3_stored : Integrity.verifyXxh3 digests record.header (stored bytes record) =
    if XxhFits digests bytes record then .ok ()
    else fail (.integrityMismatch record.header.number "xxh3") := by
  have long := stored_length read
  simp only [headerLen] at long
  rw [Integrity.verifyXxh3, TamperedSections.computeXxh3_eq
    (by simp only [Integrity.xxhCoverStart]; omega), ok_bind]
  rfl

include read in
theorem verifySha_stored : Integrity.verifySha512_256 digests record.header (stored bytes record) =
    if ShaFits digests bytes record then .ok ()
    else fail (.integrityMismatch record.header.number "sha512_256") := by
  have long := stored_length read
  simp only [headerLen] at long
  rw [Integrity.verifySha512_256, TamperedSections.computeSha512_256_eq
    (by simp only [Integrity.shaCoverStart]; omega), ok_bind]
  rfl

include serves fits backed read

theorem verifySection_ok_iff :
    verifySection digests deep image record = .ok () ↔ Intact digests bytes record deep := by
  rw [verifySection, sectionBytes_eq serves fits backed read, ok_bind, verifyXxh3_stored read, Intact]
  by_cases fast : XxhFits digests bytes record
  · rw [if_pos fast, ok_bind, and_iff_right fast]
    cases deep with
    | false => exact iff_of_true rfl fun impossible => nomatch impossible
    | true =>
      simp only [if_true, verifySha_stored read, forall_const]
      by_cases slow : ShaFits digests bytes record
      · rw [if_pos slow]
        exact iff_of_true rfl slow
      · rw [if_neg slow]
        exact iff_of_false (fun impossible => nomatch impossible) slow
  · rw [if_neg fast]
    exact iff_of_false (fun impossible => nomatch impossible) fun both => fast both.1

theorem verifySection_error_iff {failure : Failure Error} :
    verifySection digests deep image record = .error failure ↔
      Damaged digests bytes record deep failure := by
  rw [verifySection, sectionBytes_eq serves fits backed read, ok_bind, verifyXxh3_stored read, Damaged]
  by_cases fast : XxhFits digests bytes record
  · rw [if_pos fast, ok_bind]
    cases deep with
    | false => simp [fast]
    | true =>
      simp only [if_true, verifySha_stored read]
      by_cases slow : ShaFits digests bytes record
      · simp [fast, slow]
      · simp [fast, slow, eq_comm]
  · simp [fast, eq_comm]

end Checks

section Passes

variable {bytes : Bytes} {build : Build} {source : ImageSource} {image : Image}
  (digests : Digests) (deep : Bool) (serves : source.Serves bytes)
  (fits : bytes.length < sliceLimit) (opened : Image.fromSource build source = .ok image)

include serves fits opened

theorem verifySections_ok_iff : verifySections digests deep image = .ok () ↔
    ∀ record ∈ image.sections, Intact digests bytes record deep := by
  obtain ⟨backed, chain⟩ := chain_of_opened serves fits opened
  rw [verifySections, forM_ok_iff]
  exact forall₂_congr fun record member =>
    verifySection_ok_iff serves fits backed (chain_mem chain member).2

/-- Over an opened image the pass of one thread succeeds exactly when every section fits its
hashes, and otherwise names the first that does not; what a pool of threads returns is a success
exactly when that thread succeeds, and otherwise names one that does not. -/
theorem verify_exact :
    (verifySections digests deep image = .ok () ↔
      ∀ record ∈ image.sections, Intact digests bytes record deep) ∧
    (∀ failure, verifySections digests deep image = .error failure ↔
      ∃ before record after, image.sections = before ++ record :: after ∧
        (∀ other ∈ before, Intact digests bytes other deep) ∧
        Damaged digests bytes record deep failure) ∧
    ∀ result, VerifiesSections digests deep image result →
      (result = .ok () ↔ verifySections digests deep image = .ok ()) ∧
      ∀ failure, result = .error failure →
        ∃ record ∈ image.sections, Damaged digests bytes record deep failure := by
  obtain ⟨backed, chain⟩ := chain_of_opened serves fits opened
  have reads : ∀ record ∈ image.sections,
      sectionAt bytes record.fileOffset = .ok record.header := fun _ member =>
    (chain_mem chain member).2
  have passes : ∀ record ∈ image.sections, verifySection digests deep image record = .ok () ↔
      Intact digests bytes record deep := fun record member =>
    verifySection_ok_iff serves fits backed (reads record member)
  have fails : ∀ record ∈ image.sections, ∀ failure,
      verifySection digests deep image record = .error failure ↔
        Damaged digests bytes record deep failure := fun record member _ =>
    verifySection_error_iff serves fits backed (reads record member)
  refine ⟨?_, ?_, ?_⟩
  · exact verifySections_ok_iff digests deep serves fits opened
  · intro failure
    rw [verifySections, forM_error_iff]
    constructor
    · intro found
      obtain ⟨before, record, after, split, passed, failed⟩ := found
      refine ⟨before, record, after, split, fun other member => ?_, ?_⟩
      · exact (passes other (split ▸ List.mem_append_left _ member)).mp (passed other member)
      · exact (fails record (split ▸ List.mem_append_cons_self) failure).mp failed
    · intro found
      obtain ⟨before, record, after, split, intact, damaged⟩ := found
      refine ⟨before, record, after, split, fun other member => ?_, ?_⟩
      · exact (passes other (split ▸ List.mem_append_left _ member)).mpr (intact other member)
      · exact (fails record (split ▸ List.mem_append_cons_self) failure).mpr damaged
  · intro result tries
    refine ⟨?_, fun failure failed => ?_⟩
    · rw [verifySections, forM_ok_iff]
      exact tries.ok_iff
    · obtain ⟨record, member, broken⟩ := tries.failed failure failed
      exact ⟨record, member, (fails record member failure).mp broken⟩

end Passes

section Loads

variable {bytes : Bytes} {build : Build} {source : ImageSource} {image : Image}
  {digests : Digests} (libs : Libraries) (same : digests.xxh3_64 = libs.xxh3)

theorem decompress_ne_mismatch (own : CodecErrors libs) (codec : Compression) (src : Bytes)
    (cap : Nat) (number : UInt32) (kind : String) :
    decompress libs codec src cap ≠ fail (.integrityMismatch number kind) := by
  unfold decompress noneDecompress
  split
  · split <;> simp
  all_goals first
    | exact own _ _ _ _ _
    | simp

variable (serves : source.Serves bytes) (fits : bytes.length < sliceLimit)
  (opened : Image.fromSource build source = .ok image)

include same serves fits opened

/-- Each load hashes its section first, and only then looks at the payload. -/
theorem load_eq {record : SectionRecord} (member : record ∈ image.sections) (build' : Build) :
    (∀ cap, decompressSection libs image record cap =
      if XxhFits digests bytes record then
        image.payloadBytes build' record >>= fun payload =>
          decompress libs record.header.compression payload cap
      else fail (.integrityMismatch record.header.number "xxh3")) ∧
    ∀ needed, decompressSectionPrefix libs image record needed =
      if XxhFits digests bytes record then
        image.payloadBytes build' record >>= fun payload =>
          decompressPrefix libs record.header.compression payload needed
      else fail (.integrityMismatch record.header.number "xxh3") := by
  obtain ⟨backed, chain⟩ := chain_of_opened serves fits opened
  have read := (chain_mem chain member).2
  have long := stored_length read
  have payload : (slice (stored bytes record) headerLen (stored bytes record).length :
      Result Bytes) = .ok ((stored bytes record).drop headerLen) := by
    rw [slice_of_le (by omega) (Nat.le_refl _),
      List.take_of_length_le (Nat.le_of_eq List.length_drop)]
  constructor
  · intro cap
    rw [decompressSection, sectionBytes_eq serves fits backed read, ok_bind,
      ← Integrity.verifyXxh3_eq digests libs same, verifyXxh3_stored read,
      payloadBytes_eq serves fits backed read, payload]
    split <;> rfl
  · intro needed
    rw [decompressSectionPrefix, sectionBytes_eq serves fits backed read, ok_bind,
      ← Integrity.verifyXxh3_eq digests libs same, verifyXxh3_stored read,
      payloadBytes_eq serves fits backed read, payload]
    split <;> rfl

/-- The eager pass succeeds exactly when no section, loaded whole at any cap, would be refused
for its hash. Then each load is the codec's answer for the payload as stored; and a section that
the pass would refuse is refused by every load, whole or in part, before its codec runs. -/
theorem eager_pass_iff_loads (own : CodecErrors libs) :
    (verifyAll digests image = .ok () ↔ ∀ record ∈ image.sections, ∀ cap number kind,
      decompressSection libs image record cap ≠ fail (.integrityMismatch number kind)) ∧
    (verifyAll digests image = .ok () → ∀ record ∈ image.sections, ∀ build',
      (∀ cap, decompressSection libs image record cap =
        image.payloadBytes build' record >>= fun payload =>
          decompress libs record.header.compression payload cap) ∧
      ∀ needed, decompressSectionPrefix libs image record needed =
        image.payloadBytes build' record >>= fun payload =>
          decompressPrefix libs record.header.compression payload needed) ∧
    ∀ record ∈ image.sections, verifySection digests false image record ≠ .ok () →
      (∀ cap, decompressSection libs image record cap =
        fail (.integrityMismatch record.header.number "xxh3")) ∧
      ∀ needed, decompressSectionPrefix libs image record needed =
        fail (.integrityMismatch record.header.number "xxh3") := by
  obtain ⟨backed, chain⟩ := chain_of_opened serves fits opened
  have reads : ∀ record ∈ image.sections,
      sectionAt bytes record.fileOffset = .ok record.header := fun _ member =>
    (chain_mem chain member).2
  have passes : ∀ record ∈ image.sections, verifySection digests false image record = .ok () ↔
      XxhFits digests bytes record := by
    intro record member
    rw [verifySection_ok_iff serves fits backed (reads record member), Intact]
    exact and_iff_left fun impossible => nomatch impossible
  have all : verifyAll digests image = .ok () ↔
      ∀ record ∈ image.sections, XxhFits digests bytes record := by
    rw [verifyAll, verifySections, forM_ok_iff]
    exact forall₂_congr passes
  have loads := fun record member =>
    @load_eq bytes build source image digests libs same serves fits opened record member
  refine ⟨?_, ?_, ?_⟩
  · rw [all]
    constructor
    · intro fast record member cap number kind
      have read := reads record member
      rw [(loads record member build).1 cap, if_pos (fast record member),
        payloadBytes_eq serves fits backed read, ok_bind]
      exact decompress_ne_mismatch libs own _ _ _ _ _
    · intro calm record member
      by_contra wrong
      apply calm record member 0 record.header.number "xxh3"
      rw [(loads record member build).1 0, if_neg wrong]
  · intro verified record member build'
    have fast := all.mp verified record member
    obtain ⟨whole, part⟩ := loads record member build'
    exact ⟨fun cap => (whole cap).trans (if_pos fast),
      fun needed => (part needed).trans (if_pos fast)⟩
  · intro record member refused
    have wrong := fun fast => refused ((passes record member).mpr fast)
    obtain ⟨whole, part⟩ := loads record member build
    exact ⟨fun cap => (whole cap).trans (if_neg wrong),
      fun needed => (part needed).trans (if_neg wrong)⟩

end Loads

section Inputs

open IndexAbsence TamperedSections

/-- The header of the block with three bytes and no hashes. -/
def blockHeader : SectionHeader where
  major := 2
  minor := 5
  sha512_256 := List.replicate 32 0
  xxh3_64 := 0
  number := 0
  sectionType := .block
  compression := .none
  payloadLen := 3

def blockOpened : Image where
  source := .ofVec (blockImage [1, 2, 3])
  baseOffset := 0
  sections := [{ fileOffset := 0, header := blockHeader }]
  sectionIndex := none

theorem block_opened :
    Image.fromSource .checked (.ofVec (blockImage [1, 2, 3])) = .ok blockOpened := by
  have detected : detectBaseOffsetIn .checked (.ofVec (blockImage [1, 2, 3])) = .ok 0 := by
    decide +kernel
  have walked : walkSections .checked (.ofVec (blockImage [1, 2, 3])) 0 =
      .ok [{ fileOffset := 0, header := blockHeader }] := by
    decide +kernel
  have indexed : SectionIndex.fromSource .checked (.ofVec (blockImage [1, 2, 3])) 0 = .ok none := by
    decide
  simp only [Image.fromSource, Image.build, detected, walked, indexed, ok_bind, pure_eq_ok,
    blockOpened]

/-- XXH3 and SHA-512/256 of what they cover of the block, which carries neither. -/
def blockHashes : Digests :=
  tabled [((blockImage [1, 2, 3]).drop Integrity.xxhCoverStart, 0xb38c0b45032e6eab)]
    [((blockImage [1, 2, 3]).drop Integrity.shaCoverStart,
      [163, 217, 67, 107, 65, 194, 176, 73, 120, 52, 123, 249, 236, 40, 63, 165,
        107, 198, 230, 218, 120, 161, 102, 47, 176, 70, 74, 108, 84, 79, 28, 139])]

/-- The three bytes are not what the header has the hash of. -/
theorem verify_exact_block :
    verifySections blockHashes true blockOpened = fail (.integrityMismatch 0 "xxh3") :=
  ((verify_exact blockHashes true (ImageSource.serves_ofVec (by decide)) (by decide)
    block_opened).2.1 _).mpr
    ⟨[], _, [], rfl, fun _ member => (nomatch member), Or.inl ⟨by decide, rfl⟩⟩

def blockLibraries : Libraries :=
  PartialDecode.helloPackages.libraries DecodedCap.nativeBuild
    { DecodedCap.noLibraries with xxh3 := blockHashes.xxh3_64 }

theorem eager_pass_iff_loads_block :
    decompressSection blockLibraries blockOpened { fileOffset := 0, header := blockHeader } 100 =
      fail (.integrityMismatch 0 "xxh3") :=
  ((@eager_pass_iff_loads _ _ _ _ blockHashes blockLibraries rfl
    (ImageSource.serves_ofVec (by decide)) (by decide) block_opened
    (codecErrors_libraries _ _ _)).2.2 _ (List.mem_cons_self ..) (by decide)).1 100

end Inputs

end Rdwarfs.Guarantees.VerifiedImages
