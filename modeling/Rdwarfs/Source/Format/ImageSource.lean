import Rdwarfs.Source.Error

/-!
# Byte sources

format/source.rs:21-234. A source answers `len`, positional reads and, when its bytes are
contiguous in memory, `as_slice`. Offsets and lengths are 64-bit words. A file is its bytes, which
do not change while it is open; errors of the operating system are not modelled, and a memory map
serves its bytes as a vector does.
-/
namespace Rdwarfs.Source.Format

open Lib.Machine

structure ImageSource where
  len : Nat
  readExactAt : (bufLen offset : Nat) → Result Bytes
  asSlice : Option Bytes

namespace ImageSource

/-- Bounds check shared by every in-memory source. -/
def sliceAt (bytes : Bytes) (bufLen offset : Nat) : Result Bytes :=
  match (checkedAddWord offset bufLen).filter (· ≤ bytes.length) with
  | none => fail (.sourceOutOfBounds offset bufLen bytes.length)
  | some stop => slice bytes offset stop

/-- `impl ImageSource for Vec<u8>`. -/
def ofVec (bytes : Bytes) : ImageSource where
  len := bytes.length
  readExactAt := sliceAt bytes
  asSlice := some bytes

/-- `FileSource` over a file holding `bytes`; the operating system's positional read
is taken to return them. -/
def ofFile (bytes : Bytes) : ImageSource where
  len := bytes.length
  readExactAt := fun bufLen offset =>
    match (checkedAddWord offset bufLen).filter (· ≤ bytes.length) with
    | none => fail (.sourceOutOfBounds offset bufLen bytes.length)
    | some _ => .ok (field bytes offset bufLen)
  asSlice := none

/-- What every implementation promises its callers about the bytes behind it. -/
structure Serves (source : ImageSource) (bytes : Bytes) : Prop where
  len_eq : source.len = bytes.length
  reads : ∀ bufLen offset, offset + bufLen ≤ bytes.length →
    source.readExactAt bufLen offset = .ok (field bytes offset bufLen)
  refuses : ∀ bufLen offset, bytes.length < offset + bufLen →
    source.readExactAt bufLen offset = fail (.sourceOutOfBounds offset bufLen bytes.length)
  contiguous : source.asSlice = none ∨ source.asSlice = some bytes

theorem bounded_of_le {bytes : Bytes} (fits : bytes.length < sliceLimit) {bufLen offset : Nat}
    (bound : offset + bufLen ≤ bytes.length) :
    (checkedAddWord offset bufLen).filter (· ≤ bytes.length) = some (offset + bufLen) := by
  rw [sliceLimit_eq] at fits
  rw [checkedAddWord_of_lt (by rw [wordLimit_eq]; omega)]
  simp [Option.filter, bound]

theorem bounded_of_gt {bytes : Bytes} {bufLen offset : Nat}
    (beyond : bytes.length < offset + bufLen) :
    (checkedAddWord offset bufLen).filter (· ≤ bytes.length) = none := by
  cases sum : checkedAddWord offset bufLen with
  | none => rfl
  | some stop =>
    have eq := (checkedAddWord_eq_some.mp sum).2
    simp [Option.filter, ← eq, Nat.not_le.mpr beyond]

theorem serves_ofVec {bytes : Bytes} (fits : bytes.length < sliceLimit) :
    (ofVec bytes).Serves bytes where
  len_eq := rfl
  reads := fun bufLen offset bound => by
    simp only [ofVec, sliceAt, bounded_of_le fits bound]
    rw [slice_of_le (by omega) bound, Nat.add_sub_cancel_left]
    rfl
  refuses := fun bufLen offset beyond => by
    simp only [ofVec, sliceAt, bounded_of_gt beyond]
  contiguous := Or.inr rfl

theorem serves_ofFile {bytes : Bytes} (fits : bytes.length < sliceLimit) :
    (ofFile bytes).Serves bytes where
  len_eq := rfl
  reads := fun bufLen offset bound => by
    simp only [ofFile, bounded_of_le fits bound]
  refuses := fun bufLen offset beyond => by
    simp only [ofFile, bounded_of_gt beyond]
  contiguous := Or.inl rfl

/-- Read `len` bytes at `offset`, borrowing when possible. -/
def readRange (source : ImageSource) (offset len : Nat) : Result Bytes := do
  let outOfBounds := Error.sourceOutOfBounds offset len source.len
  let stop ← okOr (checkedAddWord offset len) outOfBounds
  refuseIf (stop > source.len) outOfBounds
  match source.asSlice with
  | some bytes => slice bytes offset (offset + len)
  | none => source.readExactAt len offset

theorem Serves.readRange {source : ImageSource} {bytes : Bytes} (serves : source.Serves bytes)
    (fits : bytes.length < sliceLimit) {offset len : Nat} (bound : offset + len ≤ bytes.length) :
    source.readRange offset len = .ok (field bytes offset len) := by
  rw [sliceLimit_eq] at fits
  unfold ImageSource.readRange
  rw [checkedAddWord_of_lt (by rw [wordLimit_eq]; omega)]
  simp only [okOr_some, ok_bind, serves.len_eq, refuseIf_of_not (Nat.not_lt.mpr bound)]
  rcases serves.contiguous with positional | contiguous
  · simp only [positional]
    exact serves.reads len offset bound
  · simp only [contiguous]
    rw [slice_of_le (by omega) bound, Nat.add_sub_cancel_left]
    rfl

end ImageSource

/-- A byte range of another source; `new` refuses every range that its source does not back. -/
structure WindowedSource where
  inner : ImageSource
  offset : Nat
  len : Nat
  within : ∃ stop, checkedAddWord offset len = some stop ∧ stop ≤ inner.len

namespace WindowedSource

def new (inner : ImageSource) (offset len : Nat) : Result WindowedSource :=
  match sum : checkedAddWord offset len with
  | none => fail (.sourceOutOfBounds offset len inner.len)
  | some stop =>
    if fits : stop ≤ inner.len then .ok { inner, offset, len, within := ⟨stop, sum, fits⟩ }
    else fail (.sourceOutOfBounds offset len inner.len)

/-- `impl ImageSource for WindowedSource`: the addition of the two offsets is plain. -/
def source (build : Build) (window : WindowedSource) : ImageSource where
  len := window.len
  readExactAt := fun bufLen offset =>
    match (checkedAddWord offset bufLen).filter (· ≤ window.len) with
    | none => fail (.sourceOutOfBounds offset bufLen window.len)
    | some _ => do
      let start ← (Arith.machine build).add window.offset offset
      window.inner.readExactAt bufLen start
  asSlice := do
    let bytes ← window.inner.asSlice
    let stop ← checkedAddWord window.offset window.len
    if window.offset ≤ stop ∧ stop ≤ bytes.length then
      some ((bytes.drop window.offset).take (stop - window.offset))
    else none

theorem new_of_le {inner : ImageSource} {offset len : Nat} (fits : offset + len ≤ inner.len)
    (word : offset + len < wordLimit) :
    ∃ within, new inner offset len = .ok { inner, offset, len, within } := by
  have sum := checkedAddWord_of_lt word
  refine ⟨⟨_, sum, fits⟩, ?_⟩
  unfold new
  split
  · rename_i overflow
    rw [sum] at overflow
    cases overflow
  · rename_i stop same
    rw [sum] at same
    cases same
    rw [dif_pos fits]

theorem new_of_gt {inner : ImageSource} {offset len : Nat}
    (beyond : inner.len < offset + len ∨ wordLimit ≤ offset + len) :
    new inner offset len = fail (.sourceOutOfBounds offset len inner.len) := by
  unfold new
  split
  · rfl
  · rename_i stop sum
    obtain ⟨word, rfl⟩ := checkedAddWord_eq_some.mp sum
    rw [dif_neg (by omega)]

end WindowedSource

end Rdwarfs.Source.Format
