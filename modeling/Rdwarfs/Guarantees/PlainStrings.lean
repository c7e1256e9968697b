import Rdwarfs.Guarantees.PackedLists
import Rdwarfs.Guarantees.StringTables

/-!
# Strings of plain lists

Each string of a list is a range of its own, whose distance counts from the byte anchor of its
item. Where items step by bytes the anchor moves along with them; where they step by bits it stays
at the start of the data.
-/
namespace Rdwarfs.Guarantees.PlainStrings

open Lib.Machine Lib.Bits Source Source.Metadata Metadata
open FrozenArithmetic ElidedFields ListOverruns PackedLists StringTables

section Definitions

/-- A string whose count is packed at a bit, and whose bytes lie at their distance from an
anchor. -/
structure StringAt (m : Metadata) (start anchor : Nat) (item : Layout) (bytes : Bytes) : Prop where
  counted : FieldAt m start (item.field 2) bytes.length
  placed : bytes.length ≠ 0 → ∃ distance, FieldAt m start (item.field 1) distance ∧
    anchor + distance + bytes.length ≤ m.frozen.bytes.length ∧
    field m.frozen.bytes (anchor + distance) bytes.length = bytes

/-- Strings stored as a plain list. -/
structure StringsAt (m : Metadata) (layout : Layout) (pos : Pos) (item : Layout) (data : Nat)
    (strings : List Bytes) : Prop where
  range : RangeAt m layout pos item data strings.length
  each : ∀ i bytes, strings[i]? = some bytes →
    StringAt m (8 * data + i * stride item) (anchor item data i) item bytes

/-- A root list of strings, bare or optional. -/
def Stored (m : Metadata) (id : Int16) (layout : Layout) (strings : List Bytes) : Prop :=
  ∃ pos item data, Located m id layout pos ∧ StringsAt m layout pos item data strings

end Definitions

section Reading

variable {m : Metadata} (short : 8 * m.frozen.bytes.length < wordLimit)
include short

theorem readStringBytes_of_stringAt {pos : Pos} {item : Layout} {bytes : Bytes}
    (inside : bitOf pos ≤ 8 * m.frozen.bytes.length)
    (holds : StringAt m (bitOf pos) pos.byte item bytes) :
    m.frozen.readStringBytes pos item = .ok bytes := by
  by_cases none_ : bytes.length = 0
  · have read : m.frozen.readRange pos item = .ok ⟨if bytes.length = 0 then pos.byte else 0,
        bytes.length, (item.field 3).map (·.layoutId)⟩ :=
      readRange_of_fieldAt short inside holds.counted fun some_ => absurd none_ some_
    rw [bitOf] at inside
    rw [if_pos none_] at read
    simp only [Frozen.readStringBytes, read, ok_bind, none_]
    rw [Arith.checkedAdd_of_lt _ (by omega), okOr_some, ok_bind, refuseIf_of_not (by omega), ok_bind,
      slice_of_le (by omega) (by omega), List.length_eq_zero_iff.mp none_]
    simp
  · obtain ⟨distance, far, within, same⟩ := holds.placed none_
    have read := readRange_of_fieldAt short inside holds.counted
      fun _ => ⟨distance, far, rfl, by omega⟩
    rw [if_neg none_] at read
    simp only [Frozen.readStringBytes, read, ok_bind]
    rw [Arith.checkedAdd_of_lt _ (by omega), okOr_some, ok_bind, refuseIf_of_not (by omega), ok_bind,
      slice_of_le (by omega) (by omega), Nat.add_sub_cancel_left]
    exact congrArg _ same

/-- The items of a stored list, each of which is read back. -/
theorem Stored.elements {id : Int16} {layout : Layout} {strings : List Bytes}
    (stored : Stored m id layout strings) (wide : WideDistance m layout)
    (few : strings.length ≤ defaultListCap) :
    ∃ range item, Listed m id range item ∧ range.count = strings.length ∧
      ∀ {β : Type} (finish : Bytes → Result β) i bytes, strings[i]? = some bytes →
        stringElement m range item finish i = finish bytes := by
  obtain ⟨pos, item, data, located, strung⟩ := stored
  have list : ListAt m id item data strings.length := ⟨layout, pos, located, wide, strung.range⟩
  obtain ⟨range, listed, count, element⟩ := list.listed short few
  refine ⟨range, item, listed, count, fun finish i bytes found => ?_⟩
  obtain ⟨below, _⟩ := List.getElem?_eq_some_iff.mp found
  obtain ⟨at_, placed, same, anchored⟩ := element i below
  have holds := strung.each i bytes found
  rw [← same, ← anchored] at holds
  have inside := strung.range.within i below
  rw [← same] at inside
  rw [stringElement, placed, ok_bind, readStringBytes_of_stringAt short inside holds, ok_bind]

end Reading

section Lists

variable {m : Metadata} (short : 8 * m.frozen.bytes.length < wordLimit) {id : Int16}
  {layout : Layout} {strings : List Bytes} (stored : Stored m id layout strings)
  (wide : WideDistance m layout) (few : strings.length ≤ defaultListCap)
include short stored wide few

theorem readPlainStringList_of_stored (small : strings.flatten.length < 2 ^ 32) :
    ∃ table, m.readPlainStringList id = .ok table ∧ Holds strings table := by
  obtain ⟨range, item, listed, count, element⟩ := stored.elements short wide few
  have each : List.Forall₂ (fun i bytes => ∀ out,
      stringElement m range item (pushString "string list" out) i =
        pushString "string list" out bytes) (List.range range.count) strings := by
    refine List.forall₂_iff_get.mpr ⟨by rw [List.length_range, count], fun i _ below out => ?_⟩
    rw [List.get_eq_getElem, List.getElem_range]
    exact element _ i _ (List.getElem?_eq_getElem below)
  rw [readPlainStringList_eq, overItems_of_listed listed]
  exact pushStrings_all each small

theorem readOptionalStringList_of_stored (name : String) {texts : List String}
    (utf8 : strings = texts.map Lib.Utf8.encode) : m.readOptionalStringList id name = .ok texts := by
  obtain ⟨range, item, listed, count, element⟩ := stored.elements short wide few
  rw [readOptionalStringList_eq, overItems_of_listed listed, collect_eq_ok]
  have length : strings.length = texts.length := by rw [utf8, List.length_map]
  refine List.forall₂_iff_get.mpr ⟨by rw [List.length_range, count, length], fun i _ below => ?_⟩
  have found : strings[i]? = some (Lib.Utf8.encode texts[i]) := by
    rw [utf8, List.getElem?_map, List.getElem?_eq_getElem below, Option.map_some]
  rw [List.get_eq_getElem, List.getElem_range, element _ i _ found, Lib.Utf8.decode_encode]
  rfl

end Lists

/-- A list of no more strings than the cap, whose distance is no single bit, is read as it was
stored. -/
theorem plain_strings_decode (m : Metadata) (short : 8 * m.frozen.bytes.length < wordLimit)
    (id : Int16) (layout : Layout) (strings : List Bytes) (stored : Stored m id layout strings)
    (wide : WideDistance m layout) (few : strings.length ≤ defaultListCap)
    (small : strings.flatten.length < 2 ^ 32) :
    (∃ table, m.readPlainStringList id = .ok table ∧ table.len = strings.length ∧
      ∀ i, table.get i = strings[i]?) ∧
    ∀ (name : String) (texts : List String), strings = texts.map Lib.Utf8.encode →
      m.readOptionalStringList id name = .ok texts := by
  obtain ⟨table, read, holds⟩ := readPlainStringList_of_stored short stored wide few small
  exact ⟨⟨table, read, holds_len holds, holds_get holds small⟩,
    fun name _ utf8 => readOptionalStringList_of_stored short stored wide few name utf8⟩

section Samples

/-- The names `ab`, empty and `xyz`, their counts and distances packed into one byte each. -/
def packedNames : Metadata where
  frozen :=
    { arith := .machine .checked
      schema :=
        { fileVersion := 1, relaxTypeChecks := false, rootLayout := 5
          layouts := [(0, ⟨1, 8, [], ""⟩), (1, ⟨0, 3, [], ""⟩), (4, ⟨0, 5, [], ""⟩),
            (2, ⟨0, 8, [(1, ⟨4, -3⟩), (2, ⟨1, 0⟩)], ""⟩),
            (3, ⟨2, 0, [(1, ⟨0, 0⟩), (2, ⟨0, 1⟩), (3, ⟨2, 0⟩)], ""⟩),
            (5, ⟨2, 0, [(10, ⟨3, 0⟩)], ""⟩)] }
      bytes := [2, 3, 26, 0, 43, 97, 98, 120, 121, 122] }
  rootLayout := ⟨2, 0, [(10, ⟨3, 0⟩)], ""⟩

def packedNamesLayout : Layout := ⟨2, 0, [(1, ⟨0, 0⟩), (2, ⟨0, 1⟩), (3, ⟨2, 0⟩)], ""⟩

theorem packedNames_string {start : Nat} {bytes : Bytes} (distance : Nat)
    (count : NumberAt packedNames start ⟨0, 3, [], ""⟩ bytes.length)
    (far : NumberAt packedNames (start + 3) ⟨0, 5, [], ""⟩ distance)
    (inside : 2 + distance + bytes.length ≤ packedNames.frozen.bytes.length)
    (same : field packedNames.frozen.bytes (2 + distance) bytes.length = bytes) :
    StringAt packedNames start 2 ⟨0, 8, [(1, ⟨4, -3⟩), (2, ⟨1, 0⟩)], ""⟩ bytes where
  counted := ⟨⟨0, 3, [], ""⟩, rfl, count⟩
  placed := fun _ => ⟨distance, ⟨⟨0, 5, [], ""⟩, rfl, far⟩, inside, same⟩

theorem packedNames_stored :
    Stored packedNames Ids.names packedNamesLayout [[97, 98], [], [120, 121, 122]] := by
  refine ⟨⟨0, 0⟩, ⟨0, 8, [(1, ⟨4, -3⟩), (2, ⟨1, 0⟩)], ""⟩, 2,
    .bare (show packedNames.field Ids.names = .ok (some (⟨3, 0⟩, ⟨0, 0⟩)) from rfl) rfl, ?_, ?_⟩
  · exact
      { inside := by decide
        counted := ⟨⟨1, 8, [], ""⟩, rfl, by decide⟩
        distance := fun _ => ⟨2, ⟨⟨1, 8, [], ""⟩, rfl, by decide⟩, rfl⟩
        items := ⟨⟨2, 0⟩, rfl, rfl⟩
        within := by decide }
  · intro i bytes found
    match i with
    | 0 =>
      cases found
      exact packedNames_string 3 (by decide) (by decide) (by decide)
        (by decide)
    | 1 =>
      cases found
      exact packedNames_string 0 (by decide) (by decide) (by decide)
        (by decide)
    | 2 =>
      cases found
      exact packedNames_string 5 (by decide) (by decide) (by decide)
        (by decide)
    | i + 3 => simp at found

/-- Distances count from the third byte, whichever string they are of. -/
theorem plain_strings_decode_three :
    (∃ table, packedNames.readPlainStringList Ids.names = .ok table ∧ table.len = 3 ∧
      ∀ i, table.get i = [[97, 98], [], [120, 121, 122]][i]?) ∧
    packedNames.readOptionalStringList Ids.names "names" = .ok ["ab", "", "xyz"] := by
  have wide : WideDistance packedNames packedNamesLayout := by
    rintro _ ⟨⟩
    exact ⟨⟨1, 8, [], ""⟩, rfl, by decide⟩
  obtain ⟨plain, optional⟩ := plain_strings_decode packedNames (by decide) Ids.names
    packedNamesLayout _ packedNames_stored wide (by decide) (by decide)
  exact ⟨plain, optional "names" ["ab", "", "xyz"] (by decide)⟩

/-- The names, as a list of empty strings that a word counts. -/
def emptyNames (bytes : Bytes) : Metadata where
  frozen :=
    { arith := .machine .checked
      schema :=
        { fileVersion := 1, relaxTypeChecks := false, rootLayout := 3
          layouts := [(0, ⟨4, 32, [], ""⟩), (1, ⟨0, 0, [], ""⟩),
            (2, ⟨4, 0, [(2, ⟨0, 0⟩), (3, ⟨1, 0⟩)], ""⟩), (3, ⟨4, 0, [(10, ⟨2, 0⟩)], ""⟩)] }
      bytes }
  rootLayout := ⟨4, 0, [(10, ⟨2, 0⟩)], ""⟩

def emptyNamesLayout : Layout := ⟨4, 0, [(2, ⟨0, 0⟩), (3, ⟨1, 0⟩)], ""⟩

theorem emptyNames_located (bytes : Bytes) :
    Located (emptyNames bytes) Ids.names emptyNamesLayout ⟨0, 0⟩ :=
  .bare (show (emptyNames bytes).field Ids.names = .ok (some (⟨2, 0⟩, ⟨0, 0⟩)) from rfl) rfl

theorem emptyNames_stored {bytes : Bytes} {n : Nat} (counted : Stores bytes 0 32 n) :
    Stored (emptyNames bytes) Ids.names emptyNamesLayout (List.replicate n []) := by
  refine ⟨⟨0, 0⟩, ⟨0, 0, [], ""⟩, 0, emptyNames_located bytes, ?_, ?_⟩
  · exact
      { inside := Nat.zero_le _
        counted := by
          rw [List.length_replicate]
          exact ⟨⟨4, 32, [], ""⟩, rfl, by decide, counted⟩
        distance := fun _ => ⟨0, rfl, rfl⟩
        items := ⟨⟨1, 0⟩, rfl, rfl⟩
        within := fun i _ => by
          rw [show stride ⟨0, 0, [], ""⟩ = 0 from rfl]
          omega }
  · intro i bytes found
    have empty : bytes = [] := (List.mem_replicate.mp (List.mem_of_getElem? found)).2
    subst empty
    exact ⟨rfl, fun some_ => absurd rfl some_⟩

/-- The number of bits of a long buffer is no word. -/
theorem emptyNames_long {bytes : Bytes} (long : wordLimit ≤ bytes.length * 8) :
    (emptyNames bytes).readPlainStringList Ids.names = panicked := by
  have resolved : (emptyNames bytes).resolveList Ids.names =
      .ok (some (emptyNamesLayout, ⟨0, 0⟩)) := rfl
  have kind : LayoutKind.of (emptyNames bytes).schema emptyNamesLayout = .ok (.array 1) := rfl
  have bits : (readU64 (.machine .checked) bytes 0 32 : Result Nat) = panicked := by
    rw [readU64, if_neg (by decide), refuseIf_of_not (by decide), ok_bind,
      Arith.checkedAdd_of_lt _ (by decide), okOr_some, ok_bind, Arith.mul,
      if_neg (Nat.not_lt.mpr long)]
    rfl
  have counted : (emptyNames bytes).frozen.readRangeField ⟨0, 0⟩ (some ⟨0, 0⟩) = panicked := bits
  have read : (emptyNames bytes).frozen.readRange ⟨0, 0⟩ emptyNamesLayout = panicked := by
    rw [Frozen.readRange, show emptyNamesLayout.field 2 = some ⟨0, 0⟩ from rfl, counted]
    rfl
  simp only [Metadata.readPlainStringList, resolved, kind, ok_bind, Metadata.readCappedRange, read]
  rfl

theorem stores_zeros {size width : Nat} (inside : width ≤ 8 * size) :
    Stores (List.replicate size 0) 0 width 0 where
  low := Nat.two_pow_pos width
  inside := by
    rw [List.length_replicate]
    omega
  bits := by
    intro k below
    rw [bit, List.getElem?_replicate, if_pos (by omega), Nat.zero_testBit]
    exact congrArg some (Nat.zero_testBit _)

/-- The names, a single `a`, in a list whose distance and count share a byte. -/
def narrowNames : Metadata where
  frozen :=
    { arith := .machine .checked
      schema :=
        { fileVersion := 1, relaxTypeChecks := false, rootLayout := 5
          layouts := [(0, ⟨1, 8, [], ""⟩), (1, ⟨0, 1, [], ""⟩), (4, ⟨0, 7, [], ""⟩),
            (2, ⟨2, 0, [(1, ⟨0, 1⟩), (2, ⟨0, 0⟩)], ""⟩),
            (3, ⟨1, 0, [(1, ⟨1, 0⟩), (2, ⟨4, -1⟩), (3, ⟨2, 0⟩)], ""⟩),
            (5, ⟨1, 0, [(10, ⟨3, 0⟩)], ""⟩)] }
      bytes := [3, 1, 2, 97] }
  rootLayout := ⟨1, 0, [(10, ⟨3, 0⟩)], ""⟩

def narrowNamesLayout : Layout := ⟨1, 0, [(1, ⟨1, 0⟩), (2, ⟨4, -1⟩), (3, ⟨2, 0⟩)], ""⟩

theorem narrowNames_stored : Stored narrowNames Ids.names narrowNamesLayout [[97]] := by
  refine ⟨⟨0, 0⟩, ⟨2, 0, [(1, ⟨0, 1⟩), (2, ⟨0, 0⟩)], ""⟩, 1,
    .bare (show narrowNames.field Ids.names = .ok (some (⟨3, 0⟩, ⟨0, 0⟩)) from rfl) rfl, ?_, ?_⟩
  · exact
      { inside := by decide
        counted := ⟨⟨0, 7, [], ""⟩, rfl, by decide⟩
        distance := fun _ => ⟨1, ⟨⟨0, 1, [], ""⟩, rfl, by decide⟩, rfl⟩
        items := ⟨⟨2, 0⟩, rfl, rfl⟩
        within := by decide }
  · intro i bytes found
    match i with
    | 0 =>
      cases found
      exact ⟨⟨⟨1, 8, [], ""⟩, rfl, by decide⟩,
        fun _ => ⟨2, ⟨⟨1, 8, [], ""⟩, rfl, by decide⟩, by decide, by decide⟩⟩
    | i + 1 => simp at found

/-- Stored lists that are refused: one with more strings than the cap, one whose distance is a
single bit, and one in a buffer whose bits no word counts. -/
theorem stored_strings_refused :
    (∃ m layout strings, Stored m Ids.names layout strings ∧ strings.flatten.length < 2 ^ 32 ∧
      m.readPlainStringList Ids.names =
        fail (.capExceeded "list-count" defaultListCap (defaultListCap + 1))) ∧
    (∃ m layout strings, Stored m Ids.names layout strings ∧ strings.flatten.length < 2 ^ 32 ∧
      strings.length ≤ defaultListCap ∧ m.readPlainStringList Ids.names =
        fail (Metadata.decodeError "field 10 is not an array of strings")) ∧
    ∃ m layout strings, Stored m Ids.names layout strings ∧ strings.flatten.length < 2 ^ 32 ∧
      WideDistance m layout ∧ m.readPlainStringList Ids.names = panicked := by
  have many : Stores [1, 0, 0, 4] 0 32 (defaultListCap + 1) := by decide
  have none_ : Stores (List.replicate (2 ^ 61) 0) 0 32 0 := stores_zeros (by decide)
  refine ⟨⟨_, _, _, emptyNames_stored many, ?_, by decide⟩,
    ⟨_, _, _, narrowNames_stored, by decide, by decide, by decide⟩,
    ⟨_, _, _, emptyNames_stored none_, Nat.two_pow_pos 32, ?_, emptyNames_long ?_⟩⟩
  · rw [List.flatten_replicate_nil]
    exact Nat.two_pow_pos 32
  · intro field found
    cases found
  · rw [List.length_replicate]
    decide

end Samples

end Rdwarfs.Guarantees.PlainStrings
