import Rdwarfs.Guarantees.HeaderCodec
import Rdwarfs.Source.Format.Integrity

/-!
# A changed byte of a section

Each byte of a header belongs to one field. A changed hash no longer fits what it was computed
over, a changed byte behind the hashes no longer fits the hash over it, and a changed major
version does not parse. The minor version lies before both hashed suffixes: from one accepted
value to another, nothing sees it change.
-/
namespace Rdwarfs.Guarantees.TamperedSections

open Lib.Machine Source Source.Format HeaderCodec

variable {digests : Digests} {bytes : Bytes} {header : SectionHeader}

/-- A section that parses and carries the hashes computed over it. -/
structure Sealed (digests : Digests) (bytes : Bytes) (header : SectionHeader) : Prop where
  parsed : SectionHeader.parse bytes 0 = .ok header
  whole : bytes.length = headerLen + header.payloadLen.toNat
  xxh : Integrity.computeXxh3 digests bytes = .ok header.xxh3_64
  sha : Integrity.computeSha512_256 digests bytes = .ok header.sha512_256

/-- The hash tells these two strings apart if they differ. -/
def NoCollision {δ : Type} (hash : Bytes → δ) (bytes other : Bytes) : Prop :=
  hash bytes = hash other → bytes = other

/-- Reading the section again ends in an error. -/
def Caught (digests : Digests) (bytes : Bytes) : Prop :=
  ∃ reason, (SectionHeader.parse bytes 0 >>= fun header => Integrity.verify digests header bytes) =
    fail reason

section Ranges

variable {i offset width : Nat} {byte : UInt8}

theorem field_set_outside (outside : i < offset ∨ offset + width ≤ i) :
    field (bytes.set i byte) offset width = field bytes offset width := by
  apply List.ext_getElem?
  intro k
  simp only [field, List.getElem?_take, List.getElem?_drop]
  split
  · rw [List.getElem?_set_ne (by omega)]
  · rfl

theorem field_set_inside (after : offset ≤ i) (before : i < offset + width)
    (inside : i < bytes.length) (different : byte ≠ bytes[i]) :
    field (bytes.set i byte) offset width ≠ field bytes offset width := by
  intro same
  have here := congrArg (fun window => window[i - offset]?) same
  simp only [field, List.getElem?_take_of_lt (show i - offset < width by omega),
    List.getElem?_drop, Nat.add_sub_cancel' after] at here
  rw [List.getElem?_set_self inside, List.getElem?_eq_getElem inside] at here
  exact different (Option.some.inj here)

theorem getD_set_ne (k : Nat) (other : i ≠ k) : (bytes.set i byte).getD k 0 = bytes.getD k 0 := by
  rw [List.getD_eq_getElem?_getD, List.getD_eq_getElem?_getD, List.getElem?_set_ne other]

theorem getD_set_self (inside : i < bytes.length) : (bytes.set i byte).getD i 0 = byte := by
  rw [List.getD_eq_getElem?_getD, List.getElem?_set_self inside, Option.getD_some]

theorem drop_set_ne {start : Nat} (after : start ≤ i) (inside : i < bytes.length)
    (different : byte ≠ bytes[i]) : (bytes.set i byte).drop start ≠ bytes.drop start := by
  intro same
  have here := congrArg (fun rest => rest[i - start]?) same
  simp only [List.getElem?_drop, Nat.add_sub_cancel' after] at here
  rw [List.getElem?_set_self inside, List.getElem?_eq_getElem inside] at here
  exact different (Option.some.inj here)

/-- Two words read from different bytes differ. -/
theorem leNat_field_ne {other : Bytes} (long : offset + 8 ≤ bytes.length)
    (alsoLong : offset + 8 ≤ other.length)
    (different : field bytes offset 8 ≠ field other offset 8) :
    UInt64.ofNat (leNat (field bytes offset 8)) ≠ UInt64.ofNat (leNat (field other offset 8)) := by
  intro same
  have words := congrArg UInt64.toNat same
  have word : 256 ^ 8 ≤ 2 ^ 64 := by decide
  rw [UInt64.toNat_ofNat', UInt64.toNat_ofNat', Nat.mod_eq_of_lt (leNat_field_lt bytes long word),
    Nat.mod_eq_of_lt (leNat_field_lt other alsoLong word)] at words
  apply different
  rw [← leBytes_field long, ← leBytes_field alsoLong, words]

end Ranges

section Checks

theorem computeXxh3_eq (long : Integrity.xxhCoverStart ≤ bytes.length) :
    Integrity.computeXxh3 digests bytes =
      .ok (digests.xxh3_64 (bytes.drop Integrity.xxhCoverStart)) := by
  rw [Integrity.computeXxh3, slice_of_le long (Nat.le_refl _), ok_bind,
    List.take_of_length_le (Nat.le_of_eq List.length_drop)]
  rfl

theorem computeSha512_256_eq (long : Integrity.shaCoverStart ≤ bytes.length) :
    Integrity.computeSha512_256 digests bytes =
      .ok (digests.sha512_256 (bytes.drop Integrity.shaCoverStart)) := by
  rw [Integrity.computeSha512_256, slice_of_le long (Nat.le_refl _), ok_bind,
    List.take_of_length_le (Nat.le_of_eq List.length_drop)]
  rfl

/-- Both hashes fit, or the check names the first that does not. -/
theorem verify_cases (long : headerLen ≤ bytes.length) :
    (digests.xxh3_64 (bytes.drop Integrity.xxhCoverStart) = header.xxh3_64 ∧
      digests.sha512_256 (bytes.drop Integrity.shaCoverStart) = header.sha512_256 ∧
      Integrity.verify digests header bytes = .ok ()) ∨
    ((digests.xxh3_64 (bytes.drop Integrity.xxhCoverStart) ≠ header.xxh3_64 ∨
      digests.sha512_256 (bytes.drop Integrity.shaCoverStart) ≠ header.sha512_256) ∧
      ∃ kind, Integrity.verify digests header bytes =
        fail (.integrityMismatch header.number kind)) := by
  simp only [headerLen] at long
  have xxh := @computeXxh3_eq digests bytes (Nat.le_trans (by decide) long)
  have sha := @computeSha512_256_eq digests bytes (Nat.le_trans (by decide) long)
  unfold Integrity.verify Integrity.verifyXxh3 Integrity.verifySha512_256
  rw [xxh, sha]
  by_cases fast : digests.xxh3_64 (bytes.drop Integrity.xxhCoverStart) = header.xxh3_64
  · by_cases slow : digests.sha512_256 (bytes.drop Integrity.shaCoverStart) = header.sha512_256
    · exact Or.inl ⟨fast, slow, by simp [fast, slow]⟩
    · exact Or.inr ⟨Or.inr slow, "sha512_256", by simp [fast, slow]⟩
  · exact Or.inr ⟨Or.inl fast, "xxh3", by simp [fast]⟩

theorem Sealed.fits (sealed_ : Sealed digests bytes header) :
    digests.xxh3_64 (bytes.drop Integrity.xxhCoverStart) = header.xxh3_64 ∧
      digests.sha512_256 (bytes.drop Integrity.shaCoverStart) = header.sha512_256 := by
  have long : headerLen ≤ bytes.length := by
    have whole := sealed_.whole
    omega
  simp only [headerLen] at long
  have xxh := sealed_.xxh
  have sha := sealed_.sha
  rw [computeXxh3_eq (Nat.le_trans (by decide) long)] at xxh
  rw [computeSha512_256_eq (Nat.le_trans (by decide) long)] at sha
  exact ⟨Except.ok.inj xxh, Except.ok.inj sha⟩

end Checks

/-- The change that nothing sees: another minor version that the reader accepts. -/
def MinorVersion (i : Nat) (byte : UInt8) : Prop := i = 7 ∧ byte ≤ supportedMinor

/-- Where the changed byte can be if the changed section still fits its hashes: each other
position lies in a hash, or under one, or is the major version. -/
theorem position_of_fits {i : Nat} {byte : UInt8} (sealed_ : Sealed digests bytes header)
    (behind : magicLen ≤ i) (inside : i < bytes.length) (different : byte ≠ bytes[i])
    (xxhTells : NoCollision digests.xxh3_64 (bytes.drop Integrity.xxhCoverStart)
      ((bytes.set i byte).drop Integrity.xxhCoverStart))
    (newMajor : (bytes.set i byte).getD 6 0 = 2)
    (fast : digests.xxh3_64 ((bytes.set i byte).drop Integrity.xxhCoverStart) =
      (held (bytes.set i byte)).xxh3_64)
    (slow : digests.sha512_256 ((bytes.set i byte).drop Integrity.shaCoverStart) =
      (held (bytes.set i byte)).sha512_256) : i = 7 := by
  have whole := sealed_.whole
  obtain ⟨xxh, sha⟩ := sealed_.fits
  obtain ⟨-, -, ⟨major, -⟩, same⟩ := parse_eq_ok.mp sealed_.parsed
  simp only [headerLen, magicLen] at whole behind
  rw [same] at xxh sha
  simp only [held] at xxh sha fast slow
  by_contra elsewhere
  by_cases version : i = 6
  · subst version
    rw [getD_set_self inside] at newMajor
    rw [List.getD_eq_getElem?_getD, List.getElem?_eq_getElem inside, Option.getD_some] at major
    exact different (newMajor.trans major.symm)
  by_cases inSha : i < 0x28
  · have unchanged : (bytes.set i byte).drop Integrity.shaCoverStart =
        bytes.drop Integrity.shaCoverStart := List.drop_set_of_lt inSha
    rw [unchanged, sha] at slow
    exact field_set_inside (by omega) inSha inside different slow.symm
  by_cases inXxh : i < 0x30
  · have unchanged : (bytes.set i byte).drop Integrity.xxhCoverStart =
        bytes.drop Integrity.xxhCoverStart := List.drop_set_of_lt inXxh
    rw [unchanged, xxh] at fast
    have changed := @field_set_inside bytes i 0x28 8 byte (by omega) (by omega) inside different
    exact leNat_field_ne (by omega) (by rw [List.length_set]; omega) changed.symm fast
  · rw [field_set_outside (Or.inr (by omega))] at fast
    exact drop_set_ne (by simp only [Integrity.xxhCoverStart]; omega) inside different
      (xxhTells (xxh.trans fast.symm)).symm

/-- A section with one byte changed behind the magic is caught exactly when the change is not
one of the minor version to another supported one. -/
theorem caught_iff (digests : Digests) (bytes : Bytes) (header : SectionHeader) (i : Nat)
    (byte : UInt8) (sealed_ : Sealed digests bytes header) (behind : magicLen ≤ i)
    (inside : i < bytes.length) (different : byte ≠ bytes[i])
    (xxhTells : NoCollision digests.xxh3_64 (bytes.drop Integrity.xxhCoverStart)
      ((bytes.set i byte).drop Integrity.xxhCoverStart)) :
    Caught digests (bytes.set i byte) ↔ ¬ MinorVersion i byte := by
  have whole := sealed_.whole
  have long : headerLen ≤ bytes.length := by omega
  have longSet : headerLen ≤ (bytes.set i byte).length := by
    rw [List.length_set]
    exact long
  obtain ⟨xxh, sha⟩ := sealed_.fits
  obtain ⟨-, isMagic, ⟨major, minor⟩, same⟩ := parse_eq_ok.mp sealed_.parsed
  simp only [headerLen, magicLen] at long behind
  constructor
  · rintro ⟨reason, caught⟩ ⟨rfl, supported⟩
    -- neither hashed suffix nor any other field holds the minor version
    have parsed : SectionHeader.parse (bytes.set 7 byte) 0 = .ok (held (bytes.set 7 byte)) := by
      apply parse_eq_ok.mpr
      refine ⟨longSet, ?_, ⟨?_, ?_⟩, rfl⟩
      · rw [field_set_outside (Or.inr (by decide)), isMagic]
      · rw [getD_set_ne 6 (by decide), major]
      · rw [getD_set_self inside]
        exact supported
    have fast : digests.xxh3_64 ((bytes.set 7 byte).drop Integrity.xxhCoverStart) =
        (held (bytes.set 7 byte)).xxh3_64 := by
      rw [List.drop_set_of_lt (by decide), xxh, same]
      simp only [held]
      rw [field_set_outside (Or.inl (by decide))]
    have slow : digests.sha512_256 ((bytes.set 7 byte).drop Integrity.shaCoverStart) =
        (held (bytes.set 7 byte)).sha512_256 := by
      rw [List.drop_set_of_lt (by decide), sha, same]
      simp only [held]
      rw [field_set_outside (Or.inl (by decide))]
    rw [parsed, ok_bind] at caught
    rcases @verify_cases digests _ (held (bytes.set 7 byte)) longSet with
      ⟨-, -, passes⟩ | ⟨wrong, -⟩
    · rw [passes] at caught
      cases caught
    · exact wrong.elim (absurd fast) (absurd slow)
  · intro seen
    cases parsed : SectionHeader.parse (bytes.set i byte) 0 with
    | error failure =>
      cases failure with
      | err reason => exact ⟨reason, by rw [parsed]; rfl⟩
      | panic => exact absurd parsed (SectionHeader.parse_ne_panicked _ _)
    | ok changed =>
      obtain ⟨-, -, ⟨newMajor, newMinor⟩, rfl⟩ := parse_eq_ok.mp parsed
      rcases @verify_cases digests _ (held (bytes.set i byte)) longSet with
        ⟨fast, slow, -⟩ | ⟨-, kind, refused⟩
      · have at_ := position_of_fits sealed_ behind inside different xxhTells newMajor fast slow
        subst at_
        rw [getD_set_self inside] at newMinor
        exact absurd ⟨rfl, newMinor⟩ seen
      · exact ⟨_, by rw [parsed, ok_bind, refused]⟩

/-- Hashes of some strings, by a table. -/
def tabled (fast : List (Bytes × UInt64)) (slow : List (Bytes × Bytes)) : Digests where
  xxh3_64 covered := (fast.lookup covered).getD 0
  sha512_256 covered := (slow.lookup covered).getD []

/-- An empty block of version 2.5, with its hashes. -/
def emptyBlock : SectionHeader where
  major := 2
  minor := 5
  sha512_256 := [224, 56, 37, 9, 115, 201, 67, 187, 72, 160, 15, 199, 99, 215, 201, 22,
    6, 203, 221, 3, 78, 36, 53, 70, 57, 178, 192, 65, 47, 90, 195, 43]
  xxh3_64 := 0x26f2a1148cf52011
  number := 1
  sectionType := .block
  compression := .none
  payloadLen := 0

/-- XXH3 and SHA-512/256 of what they cover of the block, and of the block numbered 2. -/
def emptyHashes : Digests :=
  tabled
    [(emptyBlock.write.drop Integrity.xxhCoverStart, emptyBlock.xxh3_64),
      ((emptyBlock.write.set 0x30 2).drop Integrity.xxhCoverStart, 0xcccf6ae5672fb05e)]
    [(emptyBlock.write.drop Integrity.shaCoverStart, emptyBlock.sha512_256),
      ((emptyBlock.write.set 0x30 2).drop Integrity.shaCoverStart,
        [250, 157, 127, 18, 3, 118, 14, 80, 155, 97, 19, 64, 206, 102, 173, 25,
          116, 164, 105, 204, 46, 122, 145, 18, 249, 58, 225, 89, 11, 10, 198, 195])]

theorem emptyBlock_sealed : Sealed emptyHashes emptyBlock.write emptyBlock where
  parsed := by decide
  whole := by decide
  xxh := by decide
  sha := by decide

/-- The section number is under both hashes. -/
theorem caught_iff_number : Caught emptyHashes (emptyBlock.write.set 0x30 2) := by
  have tells : NoCollision emptyHashes.xxh3_64 (emptyBlock.write.drop Integrity.xxhCoverStart)
      ((emptyBlock.write.set 0x30 2).drop Integrity.xxhCoverStart) :=
    fun same => absurd same (by decide)
  exact (caught_iff emptyHashes emptyBlock.write emptyBlock 0x30 2 emptyBlock_sealed (by decide)
    (by decide) (by decide) tells).mpr fun minor => absurd minor.1 (by decide)

/-- Version 2.4 for 2.5: the header parses and both hashes fit, whatever they are. -/
theorem minor_version_passes :
    ¬ ∀ (digests : Digests) (bytes : Bytes) (header : SectionHeader) (i : Nat) (byte : UInt8),
      Sealed digests bytes header → magicLen ≤ i → ∀ inside : i < bytes.length, byte ≠ bytes[i] →
      NoCollision digests.xxh3_64 (bytes.drop Integrity.xxhCoverStart)
        ((bytes.set i byte).drop Integrity.xxhCoverStart) →
      NoCollision digests.sha512_256 (bytes.drop Integrity.shaCoverStart)
        ((bytes.set i byte).drop Integrity.shaCoverStart) →
      Caught digests (bytes.set i byte) := by
  intro promised
  have xxhSame : (emptyBlock.write.set 7 4).drop Integrity.xxhCoverStart =
      emptyBlock.write.drop Integrity.xxhCoverStart := by decide
  have shaSame : (emptyBlock.write.set 7 4).drop Integrity.shaCoverStart =
      emptyBlock.write.drop Integrity.shaCoverStart := by decide
  obtain ⟨reason, caught⟩ := promised emptyHashes emptyBlock.write emptyBlock 7 4 emptyBlock_sealed
    (by decide) (by decide) (by decide) (fun _ => xxhSame.symm) (fun _ => shaSame.symm)
  have passes : (SectionHeader.parse (emptyBlock.write.set 7 4) 0 >>= fun header =>
      Integrity.verify emptyHashes header (emptyBlock.write.set 7 4)) = .ok () := by decide
  rw [passes] at caught
  cases caught

end Rdwarfs.Guarantees.TamperedSections
