import Rdwarfs.Guarantees.ReopenedImages
import Rdwarfs.Guarantees.VerifiedImages

/-!
# A changed byte of an image

An image that was verified deeply is damaged in one byte behind its base. The walk meets the same
sections up to the damaged one, and that one no longer fits its hashes, whatever became of its
length: only the minor version lies outside both. The fast pass sees less, the other hash not
being its own. What no pass sees is a change that lets detection settle on another section.
-/
namespace Rdwarfs.Guarantees.TamperedImages

open Lib.Machine Source Source.Format Source.Format.Image SectionTiling VerifiedImages FirstSection
open TamperedSections ReopenedImages WindowedSources

theorem field_drop {bytes : Bytes} {offset width start : Nat} :
    (field bytes offset width).drop start = field bytes (offset + start) (width - start) := by
  rw [field, field, List.drop_take, List.drop_drop]

section Headers

variable {bytes : Bytes} {here : Nat} {header : SectionHeader}
  (read : sectionAt bytes here = .ok header)

include read

/-- The fields of a section's header, each at its place in the image. -/
theorem header_fields :
    field bytes here 6 = magic ∧ bytes.getD (here + 6) 0 = 2 ∧
      header.sha512_256 = field bytes (here + 8) 32 ∧
      header.xxh3_64 = UInt64.ofNat (leNat (field bytes (here + 0x28) 8)) ∧
      header.payloadLen = UInt64.ofNat (leNat (field bytes (here + 0x38) 8)) := by
  unfold sectionAt at read
  simp only [bind_eq_ok, refuseIf_eq_ok] at read
  obtain ⟨_, -, parsed, isHeader, _, -, same⟩ := read
  cases same
  obtain ⟨-, isMagic, ⟨major, -⟩, same⟩ := HeaderCodec.parse_eq_ok.mp isHeader
  have first : field (field bytes here headerLen) 0 6 = field bytes (here + 0) 6 :=
    field_field (by decide)
  have at6 : (field bytes here headerLen).getD 6 0 = bytes.getD (here + 6) 0 := by
    simp [field, headerLen, List.getD_eq_getElem?_getD, List.getElem?_drop]
  rw [same]
  simp only [HeaderCodec.held]
  rw [field_field (by decide), field_field (by decide), field_field (by decide)]
  exact ⟨first ▸ isMagic, at6 ▸ major, rfl, rfl, rfl⟩

end Headers

section Change

variable {bytes : Bytes} {i : Nat} {byte : UInt8}

/-- A section that does not hold the changed byte reads as before. -/
theorem sectionAt_set {here : Nat} (outside : i < here ∨ here + headerLen ≤ i) :
    sectionAt (bytes.set i byte) here = sectionAt bytes here := by
  rw [sectionAt, sectionAt, List.length_set, field_set_outside outside]

theorem chain_set {start : Nat} {records : List SectionRecord} (before : i < start)
    (chain : Chain bytes start records) : Chain (bytes.set i byte) start records := by
  induction records generalizing start with
  | nil => exact Nat.le_trans (Nat.le_of_eq (List.length_set ..)) chain
  | cons first later ih =>
    obtain ⟨more, rfl, read, chain⟩ := chain
    refine ⟨by rw [List.length_set]; exact more, rfl, ?_, ih (by omega) chain⟩
    rw [sectionAt_set (Or.inl before), read]

/-- The bytes of an image split into sections in one way. -/
theorem chain_unique {start : Nat} {records others : List SectionRecord}
    (chain : Chain bytes start records) (other : Chain bytes start others) : others = records := by
  induction records generalizing start others with
  | nil =>
    cases others with
    | nil => rfl
    | cons first later => exact absurd other.1 (Nat.not_lt.mpr chain)
  | cons first later ih =>
    obtain ⟨more, rfl, read, chain⟩ := chain
    cases others with
    | nil => exact absurd more (Nat.not_lt.mpr other)
    | cons first' later' =>
      obtain ⟨-, place, read', other⟩ := other
      rw [read] at read'
      have same : first'.header = first.header := (Except.ok.inj read').symm
      rw [same] at other
      obtain ⟨offset, header⟩ := first'
      obtain ⟨offset', header'⟩ := first
      simp only at place same
      rw [ih chain other, place, same]

/-- The walk of the changed bytes comes to the section with the change, and from there on goes
its own way. -/
theorem chain_split {start : Nat} {records others : List SectionRecord}
    (chain : Chain bytes start records) (from_ : start ≤ i) (inside : i < bytes.length)
    (other : Chain (bytes.set i byte) start others) :
    ∃ before record after record' after',
      records = before ++ record :: after ∧ others = before ++ record' :: after' ∧
      (∀ kept ∈ before, kept.fileOffset + (headerLen + kept.header.payloadLen.toNat) ≤ i) ∧
      record'.fileOffset = record.fileOffset ∧
      record.fileOffset ≤ i ∧ i < record.fileOffset + (headerLen + record.header.payloadLen.toNat) ∧
      sectionAt bytes record.fileOffset = .ok record.header ∧
      sectionAt (bytes.set i byte) record.fileOffset = .ok record'.header ∧
      Chain bytes (record.fileOffset + (headerLen + record.header.payloadLen.toNat)) after ∧
      Chain (bytes.set i byte) (record.fileOffset + (headerLen + record'.header.payloadLen.toNat))
        after' := by
  induction records generalizing start others with
  | nil => exact absurd inside (Nat.not_lt.mpr (Nat.le_trans chain from_))
  | cons first later ih =>
    obtain ⟨more, rfl, read, chain⟩ := chain
    cases others with
    | nil =>
      have spent : bytes.length ≤ first.fileOffset :=
        Nat.le_trans (Nat.le_of_eq (List.length_set ..).symm) other
      exact absurd more (Nat.not_lt.mpr spent)
    | cons first' later' =>
      obtain ⟨-, place, read', other⟩ := other
      by_cases here : i < first.fileOffset + (headerLen + first.header.payloadLen.toNat)
      · exact ⟨[], first, later, first', later', rfl, rfl, fun _ member => (nomatch member), place,
          from_, here, read, read', chain, other⟩
      · have beyond := Nat.le_of_not_lt here
        rw [sectionAt_set (Or.inr (by omega)), read] at read'
        have same : first'.header = first.header := (Except.ok.inj read').symm
        rw [same] at other
        obtain ⟨before, record, after, record', after', split, split', kept, rest⟩ :=
          ih chain beyond other
        have whole : first' = first := by
          obtain ⟨offset, header⟩ := first'
          obtain ⟨offset', header'⟩ := first
          simp only at place same
          rw [place, same]
        refine ⟨first :: before, record, after, record', after', by rw [split, List.cons_append],
          by rw [split', whole, List.cons_append], ?_, rest⟩
        exact List.forall_mem_cons.mpr ⟨beyond, kept⟩

end Change

section Section

variable {digests : Digests} {bytes : Bytes} {i : Nat} {byte : UInt8} {record changed : SectionRecord}
  (read : sectionAt bytes record.fileOffset = .ok record.header)
  (read' : sectionAt (bytes.set i byte) record.fileOffset = .ok changed.header)
  (place : changed.fileOffset = record.fileOffset)

include read read'

/-- Only the eight bytes of the length decide where a section ends. -/
theorem payloadLen_kept
    (outside : i < record.fileOffset + 0x38 ∨ record.fileOffset + 0x40 ≤ i) :
    changed.header.payloadLen = record.header.payloadLen := by
  obtain ⟨-, -, -, -, length⟩ := header_fields read
  obtain ⟨-, -, -, -, length'⟩ := header_fields read'
  rw [length, length', field_set_outside (by omega)]

/-- Magic and major version have one value each. -/
theorem behind_version (from_ : record.fileOffset ≤ i) (inside : i < bytes.length)
    (different : byte ≠ bytes[i]) : record.fileOffset + 7 ≤ i := by
  obtain ⟨isMagic, major, -⟩ := header_fields read
  obtain ⟨isMagic', major', -⟩ := header_fields read'
  by_contra front
  by_cases version : i = record.fileOffset + 6
  · rw [← version, getD_set_self inside] at major'
    rw [← version, List.getD_eq_getElem?_getD, List.getElem?_eq_getElem inside,
      Option.getD_some] at major
    exact different (major'.trans major.symm)
  · exact field_set_inside from_ (by omega) inside different (isMagic'.trans isMagic.symm)

include place

/-- Bytes in front of both suffixes leave them as they were. -/
theorem covered_kept {start : Nat} (before : i < record.fileOffset + start)
    (hash : start ≤ 0x38) :
    (stored (bytes.set i byte) changed).drop start = (stored bytes record).drop start := by
  rw [stored, stored, place, payloadLen_kept read read' (Or.inl (by omega)), field_drop, field_drop,
    field_set_outside (Or.inl before)]

theorem xxhFits_kept (before : i < record.fileOffset + 0x28) :
    XxhFits digests (bytes.set i byte) changed ↔ XxhFits digests bytes record := by
  obtain ⟨-, -, -, xxh, -⟩ := header_fields read
  obtain ⟨-, -, -, xxh', -⟩ := header_fields read'
  rw [XxhFits, XxhFits, Integrity.xxhCoverStart,
    @covered_kept _ _ _ _ _ read read' place 0x30 (by omega) (by decide), xxh, xxh',
    field_set_outside (Or.inl before)]

theorem shaFits_kept (minor : i = record.fileOffset + 7) :
    ShaFits digests (bytes.set i byte) changed ↔ ShaFits digests bytes record := by
  obtain ⟨-, -, sha, -⟩ := header_fields read
  obtain ⟨-, -, sha', -⟩ := header_fields read'
  rw [ShaFits, ShaFits, Integrity.shaCoverStart,
    @covered_kept _ _ _ _ _ read read' place 0x28 (by omega) (by decide), sha, sha',
    field_set_outside (Or.inl (by omega))]

variable (inside : i < bytes.length) (different : byte ≠ bytes[i])

include inside different

/-- A changed hash is not the one of the same bytes. -/
theorem shaFits_broken (from_ : record.fileOffset + 8 ≤ i) (before : i < record.fileOffset + 0x28)
    (fits : ShaFits digests bytes record) : ¬ ShaFits digests (bytes.set i byte) changed := by
  obtain ⟨-, -, sha, -⟩ := header_fields read
  obtain ⟨-, -, sha', -⟩ := header_fields read'
  intro fits'
  rw [ShaFits, Integrity.shaCoverStart] at fits fits'
  rw [@covered_kept _ _ _ _ _ read read' place 0x28 before (by decide), fits, sha, sha'] at fits'
  exact field_set_inside from_ before inside different fits'.symm

/-- A changed byte from the fast hash on is told by it: the hash differs, or what it covers. -/
theorem xxhFits_broken (from_ : record.fileOffset + 0x28 ≤ i)
    (within : i < record.fileOffset + (headerLen + record.header.payloadLen.toNat))
    (tells : NoCollision digests.xxh3_64 ((stored bytes record).drop Integrity.xxhCoverStart)
      ((stored (bytes.set i byte) changed).drop Integrity.xxhCoverStart))
    (fits : XxhFits digests bytes record) : ¬ XxhFits digests (bytes.set i byte) changed := by
  have whole := sectionAt_eq_ok read
  simp only [headerLen] at whole within
  obtain ⟨-, -, -, xxh, -⟩ := header_fields read
  obtain ⟨-, -, -, xxh', -⟩ := header_fields read'
  intro fits'
  by_cases inHash : i < record.fileOffset + 0x30
  · rw [XxhFits, Integrity.xxhCoverStart] at fits fits'
    rw [@covered_kept _ _ _ _ _ read read' place 0x30 inHash (by decide), fits, xxh, xxh'] at fits'
    have changes := @field_set_inside bytes i (record.fileOffset + 0x28) 8 byte from_ (by omega)
      inside different
    exact leNat_field_ne (by omega) (by rw [List.length_set]; omega) changes.symm fits'
  · have hash : changed.header.xxh3_64 = record.header.xxh3_64 := by
      rw [xxh, xxh', field_set_outside (Or.inr (by omega))]
    have same := tells (fits.trans (hash.symm.trans fits'.symm))
    rw [stored, stored, place, field_drop, field_drop, Integrity.xxhCoverStart] at same
    have here := congrArg (fun covered => covered[i - (record.fileOffset + 0x30)]?) same
    have back : record.fileOffset + 0x30 + (i - (record.fileOffset + 0x30)) = i := by omega
    simp only [field, List.getElem?_take, List.getElem?_drop, headerLen, back,
      List.getElem?_set_self inside] at here
    rw [if_pos (by omega), List.getElem?_eq_getElem inside] at here
    split at here
    · exact different (Option.some.inj here).symm
    · cases here

end Section

section Rest

variable {digests : Digests} {bytes : Bytes} {i : Nat} {byte : UInt8} {deep : Bool}

theorem intact_set {record : SectionRecord} (outside : i < record.fileOffset ∨
      record.fileOffset + (headerLen + record.header.payloadLen.toNat) ≤ i) :
    Intact digests (bytes.set i byte) record deep ↔ Intact digests bytes record deep := by
  have same : stored (bytes.set i byte) record = stored bytes record := field_set_outside outside
  simp only [Intact, XxhFits, ShaFits, same]

variable {before after after' : List SectionRecord} {record changed : SectionRecord}
  (front : ∀ kept ∈ before, kept.fileOffset + (headerLen + kept.header.payloadLen.toNat) ≤ i)
  (within : i < record.fileOffset + (headerLen + record.header.payloadLen.toNat))
  (chain : Chain bytes (record.fileOffset + (headerLen + record.header.payloadLen.toNat)) after)

include front within chain

/-- Only one section holds the byte. -/
theorem owner_unique {other : SectionRecord} (member : other ∈ before ++ record :: after)
    (from_ : other.fileOffset ≤ i) (near : i < other.fileOffset + headerLen) : other = record := by
  rw [List.mem_append, List.mem_cons] at member
  rcases member with kept | same | later
  · have ends := front other kept
    omega
  · exact same
  · have begins := (chain_mem chain later).1
    omega

/-- In front of both suffixes a change leaves every other section where it was. -/
theorem others_intact
    (read : sectionAt bytes record.fileOffset = .ok record.header)
    (read' : sectionAt (bytes.set i byte) record.fileOffset = .ok changed.header)
    (chain' : Chain (bytes.set i byte)
      (record.fileOffset + (headerLen + changed.header.payloadLen.toNat)) after')
    (early : i < record.fileOffset + 0x28)
    (intact : ∀ kept ∈ before ++ record :: after, Intact digests bytes kept deep)
    (here : Intact digests (bytes.set i byte) changed deep) :
    ∀ kept ∈ before ++ changed :: after', Intact digests (bytes.set i byte) kept deep := by
  rw [payloadLen_kept read read' (Or.inl (by omega))] at chain'
  have same := chain_unique (chain_set within chain) chain'
  subst same
  intro kept member
  rw [List.mem_append, List.mem_cons] at member
  rcases member with earlier | same | later
  · exact (intact_set (Or.inr (front kept earlier))).mpr
      (intact kept (List.mem_append_left _ earlier))
  · exact same ▸ here
  · have begins := (chain_mem chain later).1
    exact (intact_set (Or.inl (by omega))).mpr
      (intact kept (List.mem_append_right _ (List.mem_cons_of_mem _ later)))

end Rest

section Base

variable {bytes : Bytes} {i : Nat} {byte : UInt8} {first : SectionHeader}

/-- A section still begins at the start of the bytes unless the change is in its magic, version
or length, or in the magic behind it. -/
theorem begins_set (read : sectionAt bytes 0 = .ok first) (begins : Begins bytes 0)
    (version : 8 ≤ i) (length : i < 0x38 ∨ 0x40 ≤ i)
    (next : i < headerLen + first.payloadLen.toNat ∨
      headerLen + first.payloadLen.toNat + magicLen ≤ i) : Begins (bytes.set i byte) 0 := by
  obtain ⟨room, header, parsed, boundary⟩ := begins
  have isFirst : header = first := by
    unfold sectionAt at read
    simp only [bind_eq_ok, refuseIf_eq_ok] at read
    obtain ⟨_, -, other, parsed', _, -, same⟩ := read
    cases same
    rw [parsed] at parsed'
    exact Except.ok.inj parsed'
  subst isFirst
  obtain ⟨long, isMagic, versions, same⟩ := HeaderCodec.parse_eq_ok.mp parsed
  have at_ : ∀ k < 8, (field (bytes.set i byte) 0 headerLen).getD k 0 =
      (field bytes 0 headerLen).getD k 0 := by
    intro k lt
    simp only [field, List.drop_zero, List.getD_eq_getElem?_getD, List.getElem?_take]
    rw [List.getElem?_set_ne (by omega)]
  have width : headerLen = 64 := rfl
  have magics : field (field (bytes.set i byte) 0 headerLen) 0 magicLen = magic := by
    rw [← isMagic, field_field (by decide), field_field (by decide),
      field_set_outside (Or.inr (by simp only [magicLen]; omega))]
  refine ⟨by rw [List.length_set]; exact room, _, HeaderCodec.parse_eq_ok.mpr
    ⟨?_, magics, ⟨?_, ?_⟩, rfl⟩, ?_⟩
  · rw [field_length (by rw [List.length_set]; exact room)]
  · rw [at_ 6 (by decide), versions.1]
  · rw [at_ 7 (by decide)]
    exact versions.2
  · have kept : (HeaderCodec.held (field (bytes.set i byte) 0 headerLen)).payloadLen =
        header.payloadLen := by
      rw [same]
      simp only [HeaderCodec.held]
      rw [field_field (by decide), field_field (by decide), field_set_outside (by omega)]
    rw [kept, List.length_set]
    cases boundary with
    | inl atEnd => exact Or.inl atEnd
    | inr isMagic =>
      rw [field_set_outside (by omega)]
      exact Or.inr isMagic

end Base

section Images

variable {digests : Digests} {bytes : Bytes} {i : Nat} {byte : UInt8}
  {hold hold' : Bytes → ImageSource} (held : Held hold) (held' : Held hold')
  (fits : bytes.length < sliceLimit) {build build' : Build} {image image' : Image}
  (opened : Image.fromSource build (hold bytes) = .ok image)
  (verified : verifyDeep digests image = .ok ())
  (behind : image.baseOffset ≤ i) (inside : i < bytes.length) (different : byte ≠ bytes[i])
  (opened' : Image.fromSource build' (hold' (bytes.set i byte)) = .ok image')
  (tells : ∀ record ∈ image.sections, ∀ changed ∈ image'.sections,
    changed.fileOffset = record.fileOffset →
    NoCollision digests.xxh3_64 ((stored bytes record).drop Integrity.xxhCoverStart)
      ((stored (bytes.set i byte) changed).drop Integrity.xxhCoverStart))

include held held' fits opened verified behind inside different opened' tells

/-- An image verified deeply, with one byte behind its base changed, that still opens from the
same base: the deep pass misses the change exactly when it is a section's minor version, the fast
pass exactly when it is in front of the fast hash. Where the base was the start of the source,
only a change of the first magic, version or length or of the second magic moves it. -/
theorem tampering_told :
    (image'.baseOffset = image.baseOffset →
      (verifyDeep digests image' = .ok () ↔
        ∃ record ∈ image.sections, i = record.fileOffset + 7) ∧
      (verifyAll digests image' = .ok () ↔ ∃ record ∈ image.sections,
        record.fileOffset ≤ i ∧ i < record.fileOffset + 0x28)) ∧
    (image.baseOffset = 0 → image'.baseOffset ≠ 0 →
      i < 8 ∨ (0x38 ≤ i ∧ i < 0x40) ∨ ∃ first ∈ image.sections.head?,
        headerLen + first.header.payloadLen.toNat ≤ i ∧
          i < headerLen + first.header.payloadLen.toNat + magicLen) := by
  have fits' : (bytes.set i byte).length < sliceLimit := by rwa [List.length_set]
  have serves := held.serves fits
  have serves' := held'.serves fits'
  obtain ⟨-, chain⟩ := chain_of_opened serves fits opened
  obtain ⟨-, chain'⟩ := chain_of_opened serves' fits' opened'
  have intact := (verifySections_ok_iff digests true serves fits opened).mp verified
  constructor
  · intro sameBase
    rw [sameBase] at chain'
    obtain ⟨before, record, after, changed, after', split, split', front, place, from_, within,
      read, read', later, later'⟩ := chain_split chain behind inside chain'
    rw [verifyDeep, verifyAll, verifySections_ok_iff digests true serves' fits' opened',
      verifySections_ok_iff digests false serves' fits' opened', split', split]
    have here := intact record (split ▸ List.mem_append_cons_self)
    have apart := tells record (split ▸ List.mem_append_cons_self) changed
      (split' ▸ List.mem_append_cons_self) place
    rw [split] at intact
    have version := behind_version read read' from_ inside different
    constructor
    · constructor
      · intro verified'
        obtain ⟨fast', slow'⟩ := verified' changed List.mem_append_cons_self
        refine ⟨record, List.mem_append_cons_self, ?_⟩
        by_contra elsewhere
        by_cases early : i < record.fileOffset + 0x28
        · exact shaFits_broken read read' place inside different (by omega) early (here.2 rfl)
            (slow' rfl)
        · exact xxhFits_broken read read' place inside different (Nat.le_of_not_lt early) within
            apart here.1 fast'
      · intro found
        obtain ⟨other, member, minor⟩ := found
        have same := owner_unique front within later member (by omega)
          (by simp only [headerLen]; omega)
        subst same
        apply others_intact front within later read read' later' (by omega) intact
        exact ⟨(xxhFits_kept read read' place (by omega)).mpr here.1, fun _ =>
          (shaFits_kept read read' place minor).mpr (here.2 rfl)⟩
    · constructor
      · intro verified'
        refine ⟨record, List.mem_append_cons_self, from_, ?_⟩
        by_contra late
        exact xxhFits_broken read read' place inside different (Nat.le_of_not_lt late) within
          apart here.1 (verified' changed List.mem_append_cons_self).1
      · intro found
        obtain ⟨other, member, from_', early⟩ := found
        have same := owner_unique front within later member from_'
          (by simp only [headerLen]; omega)
        subst same
        have fast := (xxhFits_kept read read' place early).mpr here.1
        apply others_intact front within later read read' later' early
        · exact fun kept member =>
            ⟨(intact kept member).1, fun impossible => absurd impossible Bool.false_ne_true⟩
        · exact ⟨fast, fun impossible => absurd impossible Bool.false_ne_true⟩
  · intro start moved
    by_contra elsewhere
    simp only [not_or, not_and, not_lt, not_exists] at elsewhere
    obtain ⟨version, length, next⟩ := elsewhere
    simp only [Image.fromSource, Image.build, bind_eq_ok, pure_eq_ok] at opened opened'
    obtain ⟨base, detected, sections, -, index, -, same⟩ := opened
    obtain ⟨base', detected', sections', -, index', -, same'⟩ := opened'
    cases same
    cases same'
    simp only at start moved next chain
    subst start
    obtain ⟨begins, -⟩ := detected_begins held fits detected
    cases sections with
    | nil => exact absurd inside (Nat.not_lt.mpr (Nat.le_trans chain (Nat.zero_le i)))
    | cons first rest =>
      obtain ⟨-, -, read, -⟩ := chain
      have kept : Begins (bytes.set i byte) 0 := by
        apply begins_set read begins version
        · by_contra both
          have low := length (by omega)
          omega
        · have apart := next first rfl
          omega
      rw [detect_start held' fits' kept] at detected'
      exact moved (Except.ok.inj detected').symm

end Images

section Inputs

/-- A block with its hashes. -/
def sealedBlock : SectionHeader where
  major := 2
  minor := 5
  sha512_256 := [42, 114, 123, 101, 91, 75, 11, 210, 211, 249, 105, 120, 62, 182, 109, 36,
    102, 6, 125, 5, 125, 53, 78, 171, 22, 174, 119, 40, 142, 88, 50, 33]
  xxh3_64 := 0xb38c0b45032e6eab
  number := 0
  sectionType := .block
  compression := .none
  payloadLen := 3

def sealedBytes : Bytes := sealedBlock.write ++ [1, 2, 3]

/-- Another first byte of the payload. -/
def changedBytes : Bytes := sealedBytes.set 64 9

/-- XXH3 and SHA-512/256 of what they cover of both. -/
def sealedHashes : Digests :=
  tabled
    [(sealedBytes.drop Integrity.xxhCoverStart, sealedBlock.xxh3_64),
      (changedBytes.drop Integrity.xxhCoverStart, 0x45b7ade92c63180b)]
    [(sealedBytes.drop Integrity.shaCoverStart, sealedBlock.sha512_256),
      (changedBytes.drop Integrity.shaCoverStart,
        [187, 166, 138, 147, 200, 37, 251, 115, 129, 176, 9, 84, 189, 116, 42, 223,
          245, 169, 147, 17, 107, 30, 21, 28, 50, 98, 143, 126, 74, 208, 216, 100])]

def sealedOpened (bytes : Bytes) : Image where
  source := .ofVec bytes
  baseOffset := 0
  sections := [{ fileOffset := 0, header := sealedBlock }]
  sectionIndex := none

theorem sealed_opened {bytes : Bytes} (either : bytes = sealedBytes ∨ bytes = changedBytes) :
    Image.fromSource .checked (.ofVec bytes) = .ok (sealedOpened bytes) := by
  have detected : detectBaseOffsetIn .checked (.ofVec bytes) = .ok 0 := by
    rcases either with rfl | rfl <;> decide +kernel
  have walked : walkSections .checked (.ofVec bytes) 0 =
      .ok [{ fileOffset := 0, header := sealedBlock }] := by
    rcases either with rfl | rfl <;> decide +kernel
  have indexed : SectionIndex.fromSource .checked (.ofVec bytes) 0 = .ok none := by
    rcases either with rfl | rfl <;> decide +kernel
  simp only [Image.fromSource, Image.build, detected, walked, indexed, ok_bind, pure_eq_ok,
    sealedOpened]

theorem tampering_told_payload : verifyAll sealedHashes (sealedOpened changedBytes) ≠ .ok () := by
  have tells : ∀ record ∈ (sealedOpened sealedBytes).sections,
      ∀ changed ∈ (sealedOpened changedBytes).sections, changed.fileOffset = record.fileOffset →
      NoCollision sealedHashes.xxh3_64
        ((stored sealedBytes record).drop Integrity.xxhCoverStart)
        ((stored changedBytes changed).drop Integrity.xxhCoverStart) := by
    intro record member changed member' _ same
    rw [List.mem_singleton.mp member, List.mem_singleton.mp member'] at same
    exact absurd same (by decide)
  intro passes
  obtain ⟨record, member, -, early⟩ := ((tampering_told .memory .memory (by decide)
    (sealed_opened (Or.inl rfl)) (by decide) (by decide) (by decide) (by decide)
    (sealed_opened (Or.inr rfl)) tells).1 rfl).2.mp passes
  rw [List.mem_singleton.mp member] at early
  exact absurd early (by decide)

end Inputs

end Rdwarfs.Guarantees.TamperedImages
