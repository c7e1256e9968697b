import Rdwarfs.Source.Format.Image

/-!
# Windows are sub-slices

A window over a source of some bytes is the source of the bytes it covers, as one value: the same
length, the same slice and the same answer to every read. Nesting therefore composes, and an image
opened in a window sees nothing else.
-/
namespace Rdwarfs.Guarantees.WindowedSources

open Lib.Machine Source Source.Format ImageSource

/-- `WindowedSource::new` again and again, each window inside the one before. -/
def nest (build : Build) : ImageSource → List (Nat × Nat) → Result ImageSource
  | source, [] => .ok source
  | source, (offset, len) :: further => do
    let window ← WindowedSource.new source offset len
    nest build (window.source build) further

/-- Where the innermost window starts. -/
def origin (steps : List (Nat × Nat)) : Nat := (steps.map Prod.fst).sum

/-- How long the innermost window is, over `whole` bytes. -/
def extent (whole : Nat) : List (Nat × Nat) → Nat
  | [] => whole
  | (_, len) :: further => extent len further

theorem field_field {bytes : Bytes} {offset len inner width : Nat} (inside : inner + width ≤ len) :
    field (field bytes offset len) inner width = field bytes (offset + inner) width := by
  rw [field, field, field, List.drop_take, List.take_take, List.drop_drop,
    Nat.min_eq_left (by omega)]

/-- The two ways bytes are held: in memory, and in a file that is read positionally. -/
inductive Held : (Bytes → ImageSource) → Prop where
  | memory : Held ofVec
  | file : Held ofFile

theorem Held.serves {hold : Bytes → ImageSource} (held : Held hold) {bytes : Bytes}
    (fits : bytes.length < sliceLimit) : (hold bytes).Serves bytes := by
  cases held with
  | memory => exact serves_ofVec fits
  | file => exact serves_ofFile fits

theorem Held.len_eq {hold : Bytes → ImageSource} (held : Held hold) (bytes : Bytes) :
    (hold bytes).len = bytes.length := by
  cases held <;> rfl

/-- A source of either kind is known by its length, its answers and its slice. -/
theorem Held.ext {hold : Bytes → ImageSource} (held : Held hold) {bytes : Bytes}
    (fits : bytes.length < sliceLimit) {source : ImageSource} (serves : source.Serves bytes)
    (contiguous : source.asSlice = (hold bytes).asSlice) : source = hold bytes := by
  obtain ⟨len, readExactAt, asSlice⟩ := source
  have other := held.serves fits
  have reads : readExactAt = (hold bytes).readExactAt := by
    funext bufLen offset
    by_cases bound : offset + bufLen ≤ bytes.length
    · rw [other.reads bufLen offset bound]
      exact serves.reads bufLen offset bound
    · rw [other.refuses bufLen offset (by omega)]
      exact serves.refuses bufLen offset (by omega)
  have same : len = (hold bytes).len := by
    rw [held.len_eq]
    exact serves.len_eq
  simp only at contiguous
  rw [same, reads, contiguous]

section Window

variable (build : Build) {hold : Bytes → ImageSource} (held : Held hold) {bytes : Bytes}
  (fits : bytes.length < sliceLimit) {offset len : Nat} (inside : offset + len ≤ bytes.length)

include fits inside

/-- Neither plain addition overflows, and no read leaves the window. -/
theorem window_serves {window : WindowedSource} (serves : window.inner.Serves bytes)
    (starts : window.offset = offset) (width : window.len = len) :
    (window.source build).Serves (field bytes offset len) where
  len_eq := by rw [field_length inside]; exact width
  reads := fun bufLen at_ bound => by
    have short := fits
    rw [sliceLimit_eq] at short
    rw [field_length inside] at bound
    have room : at_ + bufLen ≤ (field bytes offset len).length := by rwa [field_length inside]
    have within := bounded_of_le (by rw [field_length inside, sliceLimit_eq]; omega) room
    rw [field_length inside] at within
    simp only [WindowedSource.source, width, within, starts]
    rw [Arith.add_of_lt _ (by rw [wordLimit_eq]; omega), ok_bind,
      serves.reads bufLen (offset + at_) (by omega), field_field bound]
  refuses := fun bufLen at_ beyond => by
    have outside := bounded_of_gt beyond
    rw [field_length inside] at outside
    simp only [WindowedSource.source, width, outside, field_length inside]
  contiguous := by
    have short := fits
    rw [sliceLimit_eq] at short
    simp only [WindowedSource.source, starts, width]
    rcases serves.contiguous with positional | contiguous
    · exact Or.inl (by simp [positional])
    · refine Or.inr ?_
      rw [checkedAddWord_of_lt (by rw [wordLimit_eq]; omega), contiguous]
      simp [inside, field]

include held

theorem window_eq {window : WindowedSource} (inner : window.inner = hold bytes)
    (starts : window.offset = offset) (width : window.len = len) :
    window.source build = hold (field bytes offset len) := by
  have short := fits
  rw [sliceLimit_eq] at short
  have small : (field bytes offset len).length < sliceLimit := by
    rw [field_length inside, sliceLimit_eq]
    omega
  apply held.ext small
  · apply window_serves build fits inside _ starts width
    rw [inner]
    exact held.serves fits
  · simp only [WindowedSource.source, inner, starts, width]
    cases held with
    | memory =>
      simp only [ofVec, checkedAddWord_of_lt (by rw [wordLimit_eq]; omega : offset + len < wordLimit)]
      simp [inside, field]
    | file => rfl

theorem new_held :
    ∃ window, WindowedSource.new (hold bytes) offset len = .ok window ∧
      window.source build = hold (field bytes offset len) := by
  have short := fits
  rw [sliceLimit_eq] at short
  have room : offset + len ≤ (hold bytes).len := by rwa [held.len_eq]
  obtain ⟨within, eq⟩ := WindowedSource.new_of_le room (by rw [wordLimit_eq]; omega)
  exact ⟨_, eq, window_eq build held fits inside rfl rfl rfl⟩

end Window

/-- Each window lies inside the one before. -/
def Backed : Nat → List (Nat × Nat) → Prop
  | _, [] => True
  | whole, (offset, len) :: further => offset + len ≤ whole ∧ Backed len further

theorem Backed.bound {steps : List (Nat × Nat)} {whole : Nat} (backed : Backed whole steps) :
    origin steps + extent whole steps ≤ whole := by
  induction steps generalizing whole with
  | nil => simp [origin, extent]
  | cons step further ih =>
    have rest := ih backed.2
    have here := backed.1
    simp only [origin, extent, List.map_cons, List.sum_cons] at rest ⊢
    omega

/-- A chain of windows that opens is the source of one sub-slice. -/
theorem nest_eq_ok (build : Build) {hold : Bytes → ImageSource} (held : Held hold)
    {steps : List (Nat × Nat)} {bytes : Bytes} (fits : bytes.length < sliceLimit)
    {source : ImageSource} :
    nest build (hold bytes) steps = .ok source ↔
      Backed bytes.length steps ∧
        source = hold (field bytes (origin steps) (extent bytes.length steps)) := by
  induction steps generalizing bytes with
  | nil =>
    have whole : field bytes (origin []) (extent bytes.length []) = bytes := by
      simp [origin, extent, field]
    rw [whole, nest, Except.ok.injEq]
    exact ⟨fun same => ⟨trivial, same.symm⟩, fun both => both.2.symm⟩
  | cons step further ih =>
    obtain ⟨offset, len⟩ := step
    rw [nest]
    by_cases inside : offset + len ≤ bytes.length
    · obtain ⟨window, made, eq⟩ := new_held build held fits inside
      have width := field_length inside
      rw [made, ok_bind, eq, ih (by omega), width]
      have start : origin ((offset, len) :: further) = offset + origin further := by
        simp [origin]
      rw [start, extent]
      constructor
      · rintro ⟨backed, same⟩
        rw [field_field backed.bound] at same
        exact ⟨⟨inside, backed⟩, same⟩
      · rintro ⟨⟨-, backed⟩, same⟩
        rw [← field_field backed.bound] at same
        exact ⟨backed, same⟩
    · rw [WindowedSource.new_of_gt (Or.inl (by rw [held.len_eq]; omega)), error_bind]
      constructor
      · intro opened
        cases opened
      · rintro ⟨⟨backed, -⟩, -⟩
        exact absurd backed inside

/-- What `readRange` answers over any source of the bytes. -/
theorem readRange_serves {source : ImageSource} {bytes : Bytes} (serves : source.Serves bytes)
    (fits : bytes.length < sliceLimit) (offset len : Nat) :
    source.readRange offset len =
      if offset + len ≤ bytes.length then .ok (field bytes offset len)
      else fail (.sourceOutOfBounds offset len bytes.length) := by
  by_cases inside : offset + len ≤ bytes.length
  · rw [if_pos inside, serves.readRange fits inside]
  · rw [if_neg inside]
    unfold ImageSource.readRange
    dsimp only
    cases sum : checkedAddWord offset len with
    | none => rw [okOr_none, error_bind, serves.len_eq]
    | some stop =>
      obtain ⟨-, rfl⟩ := checkedAddWord_eq_some.mp sum
      rw [okOr_some, ok_bind, refuseIf_of (by rw [serves.len_eq]; omega), error_bind,
        serves.len_eq]

section Main

variable (build : Build) {bytes : Bytes} (fits : bytes.length < sliceLimit)

/-- A window opens exactly on the ranges that its source backs. -/
theorem new_iff (inner : ImageSource) (offset len : Nat) :
    ((∃ window, WindowedSource.new inner offset len = .ok window) ↔
      offset + len ≤ inner.len ∧ offset + len < wordLimit) ∧
    (¬ (offset + len ≤ inner.len ∧ offset + len < wordLimit) →
      WindowedSource.new inner offset len = fail (.sourceOutOfBounds offset len inner.len)) := by
  by_cases backed : offset + len ≤ inner.len ∧ offset + len < wordLimit
  · obtain ⟨within, eq⟩ := WindowedSource.new_of_le backed.1 backed.2
    exact ⟨⟨fun _ => backed, fun _ => ⟨_, eq⟩⟩, fun unbacked => absurd backed unbacked⟩
  · have refused : WindowedSource.new inner offset len =
        fail (.sourceOutOfBounds offset len inner.len) :=
      WindowedSource.new_of_gt (by omega)
    refine ⟨⟨?_, fun holds => absurd holds backed⟩, fun _ => refused⟩
    rintro ⟨window, made⟩
    rw [refused] at made
    cases made

/-- What an image in a window is opened over. -/
theorem fromWindow_eq {hold : Bytes → ImageSource} (held : Held hold) {bytes : Bytes}
    (fits : bytes.length < sliceLimit) (offset len : Nat) :
    Image.fromWindow build (hold bytes) offset len =
      if offset + len ≤ bytes.length then Image.fromSource build (hold (field bytes offset len))
      else fail (.sourceOutOfBounds offset len bytes.length) := by
  unfold Image.fromWindow
  by_cases inside : offset + len ≤ bytes.length
  · obtain ⟨window, made, eq⟩ := new_held build held fits inside
    rw [if_pos inside, made, ok_bind, eq]
  · rw [if_neg inside, WindowedSource.new_of_gt (Or.inl (by rw [held.len_eq]; omega)),
      error_bind, held.len_eq]

include fits in
/-- Every chain of windows is its sub-slice, whether in memory or in a file; a window is refused
exactly when its source does not back it; either kind reads the same ranges; and an image opened in
a window depends on the bytes of the window alone. -/
theorem window_is_sub_slice :
    (∀ inner offset len,
      ((∃ window, WindowedSource.new inner offset len = .ok window) ↔
        offset + len ≤ inner.len ∧ offset + len < wordLimit) ∧
      (¬ (offset + len ≤ inner.len ∧ offset + len < wordLimit) →
        WindowedSource.new inner offset len = fail (.sourceOutOfBounds offset len inner.len))) ∧
    (∀ hold, Held hold → ∀ steps source, nest build (hold bytes) steps = .ok source →
      origin steps + extent bytes.length steps ≤ bytes.length ∧
        source = hold (field bytes (origin steps) (extent bytes.length steps))) ∧
    (∀ steps source, nest build (ofVec bytes) steps = .ok source →
      ∃ positional, nest build (ofFile bytes) steps = .ok positional ∧ positional.asSlice = none ∧
        ∀ offset len, positional.readRange offset len = source.readRange offset len) ∧
    (∀ hold, Held hold → ∀ other : Bytes, other.length < sliceLimit → ∀ offset offset' len,
      offset + len ≤ bytes.length → offset' + len ≤ other.length →
      field bytes offset len = field other offset' len →
      Image.fromWindow build (hold bytes) offset len =
        Image.fromWindow build (hold other) offset' len) := by
  refine ⟨new_iff, ?_, ?_, ?_⟩
  · intro hold held steps source nested
    obtain ⟨backed, same⟩ := (nest_eq_ok build held fits).mp nested
    exact ⟨backed.bound, same⟩
  · intro steps source nested
    obtain ⟨backed, same⟩ := (nest_eq_ok build .memory fits).mp nested
    have positional := (nest_eq_ok build .file fits).mpr ⟨backed, rfl⟩
    refine ⟨_, positional, rfl, fun offset len => ?_⟩
    have small : (field bytes (origin steps) (extent bytes.length steps)).length < sliceLimit := by
      rw [field_length backed.bound]
      have := backed.bound
      omega
    rw [same, readRange_serves (serves_ofFile small) small,
      readRange_serves (serves_ofVec small) small]
  · intro hold held other short offset offset' len inside inside' same
    rw [fromWindow_eq build held fits, fromWindow_eq build held short, if_pos inside,
      if_pos inside', same]

end Main

/-- Three bytes in a window of six in ten. -/
def digits : Bytes := [0, 1, 2, 3, 4, 5, 6, 7, 8, 9]

theorem window_is_sub_slice_digits :
    ∃ source, nest .checked (ofVec digits) [(2, 6), (1, 3)] = .ok source ∧
      source = ofVec [3, 4, 5] := by
  obtain ⟨source, nested⟩ : ∃ source, nest .checked (ofVec digits) [(2, 6), (1, 3)] = .ok source :=
    ⟨_, rfl⟩
  have contents := (window_is_sub_slice .checked (by decide : digits.length < sliceLimit)).2.1
  exact ⟨source, nested, (contents ofVec .memory _ source nested).2⟩

end Rdwarfs.Guarantees.WindowedSources
