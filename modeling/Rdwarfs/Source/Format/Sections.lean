import Rdwarfs.Source.Format.Header

/-!
# The section iterator

format/sections.rs:13-100: the sections of an image that is one slice in memory, handed out one
by one. The cursor is a `usize`, here as wide as the offsets it starts from; a 32-bit `usize` is not
modelled.
-/
namespace Rdwarfs.Source.Format

open Lib.Machine

structure SectionRef where
  fileOffset : Nat
  header : SectionHeader
  bytes : Bytes
  deriving DecidableEq, Repr

structure Sections where
  image : Bytes
  cursor : Nat
  done : Bool
  deriving DecidableEq, Repr

def Sections.new (image : Bytes) (baseOffset : Nat) : Sections where
  image := image
  cursor := baseOffset
  done := false

/-- `next` has no error of its own: a section that does not parse is an item. -/
def Sections.next (build : Build) (it : Sections) :
    Res Empty (Option (Except Error SectionRef) × Sections) :=
  if it.done ∨ it.cursor ≥ it.image.length then .ok (none, it)
  else do
    let here := it.cursor
    let headerEnd ← (Arith.machine build).add here headerLen
    if headerEnd > it.image.length then
      .ok (some (.error (.truncatedHeader here)), { it with done := true })
    else
      let headerBytes ← slice it.image here headerEnd
      match ← attempt (SectionHeader.parse headerBytes here) with
      | .error reason => .ok (some (.error reason), { it with done := true })
      | .ok header =>
        match (checkedAddWord here header.sectionLen).filter (· ≤ it.image.length) with
        | none =>
          .ok (some (.error (.truncatedSection header.number here)), { it with done := true })
        | some stop =>
          let bytes ← slice it.image here stop
          .ok (some (.ok { fileOffset := here, header, bytes }), { it with cursor := stop })

end Rdwarfs.Source.Format
