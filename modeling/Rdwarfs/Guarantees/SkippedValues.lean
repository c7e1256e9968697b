import Rdwarfs.Guarantees.CompactDecoding
import Rdwarfs.Lib.CompactTrees

/-!
# Skipping one value

A field nobody knows is skipped by its type alone. Whatever value of that type was written, in
any of the forms the encoding has for it, skipping ends right behind it, with the field id and
the frames of the enclosing structs as they were.
-/
namespace Rdwarfs.Guarantees.SkippedValues

open Lib.Machine Lib.Compact Source Source.Metadata ThriftReader CompactDecoding

/-- `fits` is what every slice has: fewer than `2 ^ 63` bytes. -/
theorem skip_value_exact {kind : Kind} (tree : Tree (.value kind)) (front suffix : Bytes)
    (last : Int16) (stack : List Int16)
    (fits : (front ++ (tree.encode ++ suffix)).length < sliceLimit) :
    skipValue (ttypeOf kind) ⟨front ++ (tree.encode ++ suffix), front.length, last, stack⟩ =
      .ok ((), ⟨front ++ (tree.encode ++ suffix), front.length + tree.encode.length, last, stack⟩) :=
  takes_skipValue tree.encoded last front suffix stack fits

section Inputs

/-- A set of two booleans under the long header, a flag, an empty map under an id written out, and
a struct within the struct, its id below the one before it. -/
def nested : Tree (.value .struct) :=
  .struct
    (.field 1 false (@Lib.Compact.Tree.list .set .boolTrue 2 (Or.inr rfl) true (by decide)
      (.elements (.flag (Or.inl rfl) 1) (.elements (.flag (Or.inl rfl) 2) .noElements)))
    (.field 2 false .boolFalse
    (.field 40 false (@Lib.Compact.Tree.map .i16 .struct 0 (by decide) .noPairs)
    (.field 3 false (.struct (.field 16 true (.binary [65, 66] (by decide)) .stop)) .stop))))

theorem nested_encode : nested.encode =
    [0x1A, 0xF1, 2, 1, 2, 0x12, 0x0B, 80, 0, 0x0C, 6, 0x08, 32, 2, 65, 66, 0, 0] := by
  simp [nested, Tree.encode, listHead, mapHead, fieldHead, leb, zigzag, Kind.packed, Kind.code]

theorem skip_nested :
    skipValue .struct ⟨[5] ++ (nested.encode ++ [0, 7]), 1, 5, [9]⟩ =
      .ok ((), ⟨[5] ++ (nested.encode ++ [0, 7]), 1 + nested.encode.length, 5, [9]⟩) :=
  skip_value_exact nested [5] [0, 7] 5 [9] (by rw [nested_encode, sliceLimit_eq]; decide)

end Inputs

end Rdwarfs.Guarantees.SkippedValues
