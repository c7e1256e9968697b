import Rdwarfs.Source.Format.Image

/-!
# Images without a section index

The presence of an index is guessed from the last eight bytes of the file, which for
an image without one belong to whatever its last section ends in. An image that walks
and holds no index section opens exactly when that tail does not look like an index row.
-/
namespace Rdwarfs.Guarantees.IndexAbsence

open Lib.Machine Source Source.Format

section Tail

/-- The two highest bytes of a row decide its type. -/
theorem typeOf_leNat_eq_sectionIndex {tail : Bytes} (eight : tail.length = 8) :
    SectionIndex.typeOf (leNat tail) = SectionType.sectionIndex.asU16 ↔ tail.drop 6 = [9, 0] := by
  obtain ⟨b0, b1, b2, b3, b4, b5, b6, b7, rfl⟩ :
      ∃ b0 b1 b2 b3 b4 b5 b6 b7 : UInt8, tail = [b0, b1, b2, b3, b4, b5, b6, b7] := by
    match tail, eight with
    | [b0, b1, b2, b3, b4, b5, b6, b7], _ => exact ⟨_, _, _, _, _, _, _, _, rfl⟩
  have low : leNat [b0, b1, b2, b3, b4, b5] < 2 ^ 48 := by
    simpa using leNat_lt [b0, b1, b2, b3, b4, b5]
  have split : leNat [b0, b1, b2, b3, b4, b5, b6, b7] =
      leNat [b0, b1, b2, b3, b4, b5] + 2 ^ 48 * (b6.toNat + 256 * b7.toNat) := by
    have both := leNat_append [b0, b1, b2, b3, b4, b5] [b6, b7]
    have last : leNat [b6, b7] = b6.toNat + 256 * b7.toNat := by simp [leNat]
    have power : 256 ^ [b0, b1, b2, b3, b4, b5].length = 2 ^ 48 := by simp
    rw [last, power] at both
    simpa only [List.cons_append, List.nil_append] using both
  have high : leNat [b0, b1, b2, b3, b4, b5, b6, b7] / 2 ^ 48 = b6.toNat + 256 * b7.toNat := by
    rw [split, Nat.add_mul_div_left _ _ (by decide), Nat.div_eq_of_lt low, Nat.zero_add]
  have lt6 := b6.toNat_lt
  have lt7 := b7.toNat_lt
  simp only [SectionIndex.typeOf, high, SectionType.asU16, List.drop_succ_cons, List.drop_zero,
    List.cons.injEq, and_true, ← UInt16.toNat_inj, ← UInt8.toNat_inj, UInt16.toNat_ofNat',
    UInt8.toNat_ofNat, UInt16.toNat_ofNat]
  omega

variable {build : Build} {source : ImageSource} {image : Bytes} (serves : source.Serves image)

include serves

/-- `SectionIndex.fromSource` reports no index exactly when the tail is unmarked. -/
theorem fromSource_eq_none_iff (long : 8 ≤ image.length) (baseOffset : Nat) :
    SectionIndex.fromSource build source baseOffset = .ok none ↔
      ¬ SectionIndex.TailMarked image := by
  have eight : (field image (image.length - 8) 8).length = 8 := by
    simp only [field, List.length_take, List.length_drop]
    omega
  have marked : SectionIndex.typeOf (leNat (field image (image.length - 8) 8)) =
      SectionType.sectionIndex.asU16 ↔ SectionIndex.TailMarked image := by
    rw [typeOf_leNat_eq_sectionIndex eight, SectionIndex.TailMarked, field, field, List.drop_take,
      List.drop_drop, show image.length - 8 + 6 = image.length - 2 by omega]
  unfold SectionIndex.fromSource
  simp only [serves.len_eq, if_neg (Nat.not_lt.mpr long),
    serves.reads 8 (image.length - 8) (by omega), ok_bind]
  by_cases here : SectionIndex.TailMarked image
  · rw [if_neg (by simp [marked.mpr here])]
    refine iff_of_false (fun none_ => ?_) (by simp [here])
    obtain ⟨index, -, some_⟩ := bind_eq_ok.mp none_
    cases some_
  · rw [if_pos (fun eq => here (marked.mp eq))]
    exact iff_of_true rfl here

/-- A source in which a header was detected has room for one. -/
theorem detected_bound {baseOffset : Nat}
    (detected : detectBaseOffsetIn build source = .ok baseOffset) : headerLen ≤ image.length := by
  by_contra short
  unfold detectBaseOffsetIn detectBaseOffset at detected
  rcases serves.contiguous with positional | contiguous
  · simp only [positional, serves.len_eq, if_pos (Nat.lt_of_not_le short)] at detected
    cases detected
  · simp only [contiguous, if_pos (Nat.lt_of_not_le short)] at detected
    cases detected

end Tail

/-- A source that walks, whatever its sections are, opens with no index exactly when the
last two bytes of the image are not those of an index row. -/
theorem absent_index_iff (build : Build) (source : ImageSource) (image : Bytes)
    (baseOffset : Nat) (sections : List SectionRecord) (serves : source.Serves image)
    (detected : detectBaseOffsetIn build source = .ok baseOffset)
    (walked : walkSections build source baseOffset = .ok sections) :
    (SectionIndex.fromSource build source baseOffset = .ok none ∧
      ∃ opened, Image.fromSource build source = .ok opened) ↔
    ¬ SectionIndex.TailMarked image := by
  have long := detected_bound serves detected
  have tail := @fromSource_eq_none_iff build _ _ serves
    (by simp only [headerLen] at long; omega) baseOffset
  rw [← tail]
  refine ⟨fun both => both.1, fun none_ => ⟨none_, ?_⟩⟩
  simp only [Image.fromSource, Image.build, detected, walked, none_, ok_bind]
  exact ⟨_, rfl⟩

section Inputs

/-- One uncompressed block section holding `payload`, fewer than 256 bytes long. -/
def blockImage (payload : Bytes) : Bytes :=
  magic ++ [2, 5] ++ List.replicate 48 0 ++ [UInt8.ofNat payload.length] ++
    List.replicate 7 0 ++ payload

theorem absent_index_plain :
    SectionIndex.fromSource .checked (.ofVec (blockImage [1, 2, 3])) 0 = .ok none ∧
      ∃ opened, Image.fromSource .checked (.ofVec (blockImage [1, 2, 3])) = .ok opened :=
  (absent_index_iff .checked (.ofVec (blockImage [1, 2, 3])) (blockImage [1, 2, 3]) 0
    [{ fileOffset := 0
       header :=
        { major := 2, minor := 5, sha512_256 := List.replicate 32 0, xxh3_64 := 0, number := 0
          sectionType := .block, compression := .none, payloadLen := 3 } }]
    (ImageSource.serves_ofVec (by decide)) (by decide +kernel) (by decide +kernel)).mpr
    (by decide)

/-- A payload that ends like an index row: no section is an index, and the image is refused. -/
theorem absent_index_fails :
    (∃ sections, walkSections .checked (.ofVec (blockImage [0, 0, 0, 0, 0, 0, 9, 0])) 0 =
        .ok sections ∧ ∀ record ∈ sections, record.header.sectionType ≠ .sectionIndex) ∧
      detectBaseOffsetIn .checked (.ofVec (blockImage [0, 0, 0, 0, 0, 0, 9, 0])) = .ok 0 ∧
      SectionIndex.fromSource .checked (.ofVec (blockImage [0, 0, 0, 0, 0, 0, 9, 0])) 0 =
        fail (.corruptSectionIndex "tail offset does not point to SECTION_INDEX") ∧
      ¬ ∃ opened, Image.fromSource .checked (.ofVec (blockImage [0, 0, 0, 0, 0, 0, 9, 0])) =
        .ok opened := by
  generalize hostile : ImageSource.ofVec (blockImage [0, 0, 0, 0, 0, 0, 9, 0]) = source
  have detected : detectBaseOffsetIn .checked source = .ok 0 := by
    subst hostile
    decide +kernel
  have walked : walkSections .checked source 0 = .ok
      [{ fileOffset := 0
         header :=
          { major := 2, minor := 5, sha512_256 := List.replicate 32 0, xxh3_64 := 0, number := 0
            sectionType := .block, compression := .none, payloadLen := 8 } }] := by
    subst hostile
    decide +kernel
  have refused : SectionIndex.fromSource .checked source 0 =
      fail (.corruptSectionIndex "tail offset does not point to SECTION_INDEX") := by
    subst hostile
    decide
  refine ⟨⟨_, walked, by decide⟩, detected, refused, ?_⟩
  rintro ⟨opened, eq⟩
  simp only [Image.fromSource, Image.build, detected, walked, refused, ok_bind, error_bind] at eq
  cases eq

end Inputs

end Rdwarfs.Guarantees.IndexAbsence
