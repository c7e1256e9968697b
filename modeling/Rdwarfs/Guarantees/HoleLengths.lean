import Rdwarfs.Source.Fs.Tables

/-!
# Two encodings of a hole

A hole chunk holds its length as whole blocks and a remainder, or, under the sentinel offset, an
index into the table of large holes. A remainder is below the block size, which is a 32-bit word,
so it is never the sentinel.
-/
namespace Rdwarfs.Guarantees.HoleLengths

open Lib.Machine Source Source.Metadata Source.Fs

/-- The chunk of a hole whose length is stored in place. -/
def inlineHole (block blockSize : UInt32) (length : Nat) : Chunk where
  block
  offset := UInt32.ofNat (length % blockSize.toNat)
  size := UInt32.ofNat (length / blockSize.toNat)

/-- The chunk of a hole whose length is entry `index` of the table. -/
def tabledHole (block index : UInt32) : Chunk where
  block
  offset := largeHoleSentinel
  size := index

/-- The largest product and the largest offset leave no carry. -/
theorem inline_fits (size offset blockSize : UInt32) :
    size.toNat * blockSize.toNat + offset.toNat < wordLimit := by
  have product : size.toNat * blockSize.toNat ≤ 4294967295 * 4294967295 :=
    Nat.mul_le_mul (Nat.le_of_lt_succ size.toNat_lt) (Nat.le_of_lt_succ blockSize.toNat_lt)
  have last := offset.toNat_lt
  rw [wordLimit_eq]
  omega

/-- Where the offset is not the sentinel the length is in place, and both steps stay in the word. -/
theorem holeLength_inline {chunk : Chunk} (plain : chunk.offset ≠ largeHoleSentinel)
    (blockSize : UInt32) (large : List UInt64) :
    holeLength chunk blockSize large =
      .ok (chunk.size.toNat * blockSize.toNat + chunk.offset.toNat) := by
  have fits := inline_fits chunk.size chunk.offset blockSize
  have product : chunk.size.toNat * blockSize.toNat < wordLimit :=
    Nat.lt_of_le_of_lt (Nat.le_add_right _ _) fits
  rw [holeLength, if_neg plain, Arith.checkedMul, if_pos product, Option.bind_some,
    checkedAddWord_of_lt fits, okOr_some]

theorem holeLength_tabled (block index blockSize : UInt32) (large : List UInt64) :
    holeLength (tabledHole block index) blockSize large =
      okOr (large[index.toNat]?.map UInt64.toNat)
        (corrupt s!"large_hole_size index {index.toNat} out of range") := by
  rw [holeLength, tabledHole, if_pos rfl]

section Inline

variable {blockSize : UInt32} {length : Nat} (positive : 0 < blockSize)
  (bound : length < 2 ^ 32 * blockSize.toNat)

include positive

theorem inlineHole_offset (block : UInt32) :
    (inlineHole block blockSize length).offset.toNat = length % blockSize.toNat := by
  have size := UInt32.lt_iff_toNat_lt.mp positive
  have word := blockSize.toNat_lt
  have below := Nat.mod_lt length size
  rw [inlineHole, UInt32.toNat_ofNat', Nat.mod_eq_of_lt (Nat.lt_trans below word)]

/-- Not even a remainder of `blockSize - 1` is the sentinel. -/
theorem inlineHole_plain (block : UInt32) :
    (inlineHole block blockSize length).offset ≠ largeHoleSentinel := by
  have size := UInt32.lt_iff_toNat_lt.mp positive
  have word := blockSize.toNat_lt
  have below := Nat.mod_lt length size
  intro same
  have largest := congrArg UInt32.toNat same
  rw [inlineHole_offset positive] at largest
  simp only [largeHoleSentinel, UInt32.reduceToNat] at largest
  omega

include bound

theorem inlineHole_size (block : UInt32) :
    (inlineHole block blockSize length).size.toNat = length / blockSize.toNat := by
  have size := UInt32.lt_iff_toNat_lt.mp positive
  have blocks : length / blockSize.toNat < 2 ^ 32 := (Nat.div_lt_iff_lt_mul size).mpr bound
  rw [inlineHole, UInt32.toNat_ofNat', Nat.mod_eq_of_lt blocks]

end Inline

/-- Every length that fits is read back from its chunk, every index from its entry, and no chunk
overflows. -/
theorem hole_lengths :
    (∀ (blockSize : UInt32) (large : List UInt64) (block : UInt32) (length : Nat), 0 < blockSize →
      length < 2 ^ 32 * blockSize.toNat →
      (inlineHole block blockSize length).size.toNat = length / blockSize.toNat ∧
        (inlineHole block blockSize length).offset.toNat = length % blockSize.toNat ∧
        (inlineHole block blockSize length).offset ≠ largeHoleSentinel ∧
        holeLength (inlineHole block blockSize length) blockSize large = .ok length) ∧
    (∀ (blockSize : UInt32) (large : List UInt64) (block index : UInt32),
      (∀ entry, large[index.toNat]? = some entry →
        holeLength (tabledHole block index) blockSize large = .ok entry.toNat) ∧
      (large.length ≤ index.toNat → ∃ reason,
        holeLength (tabledHole block index) blockSize large = fail reason)) ∧
    ∀ (blockSize : UInt32) (large : List UInt64) (chunk : Chunk),
      chunk.size.toNat * blockSize.toNat + chunk.offset.toNat < wordLimit ∧
        (chunk.offset ≠ largeHoleSentinel → holeLength chunk blockSize large =
          .ok (chunk.size.toNat * blockSize.toNat + chunk.offset.toNat)) := by
  refine ⟨?_, ?_, ?_⟩
  · intro blockSize large block length positive bound
    have size := inlineHole_size positive bound block
    have offset := @inlineHole_offset blockSize length positive block
    have plain := @inlineHole_plain blockSize length positive block
    refine ⟨size, offset, plain, ?_⟩
    rw [holeLength_inline plain, size, offset, Nat.div_add_mod']
  · intro blockSize large block index
    rw [holeLength_tabled]
    constructor
    · intro entry found
      rw [found, Option.map_some, okOr_some]
    · intro beyond
      rw [List.getElem?_eq_none beyond]
      exact ⟨_, rfl⟩
  · intro blockSize large chunk
    exact ⟨inline_fits .., fun plain => holeLength_inline plain blockSize large⟩

/-- A hole of one byte less than two blocks of 4 KiB leaves the remainder the format's text reserves. -/
theorem hole_lengths_remainder :
    holeLength (inlineHole 9 4096 8191) 4096 [5] = .ok 8191 ∧
      holeLength (tabledHole 9 0) 4096 [5] = .ok 5 :=
  ⟨(hole_lengths.1 4096 [5] 9 8191 (by decide) (by decide)).2.2.2,
    (hole_lengths.2.1 4096 [5] 9 0).1 5 rfl⟩

end Rdwarfs.Guarantees.HoleLengths
