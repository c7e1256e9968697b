import Rdwarfs.Lib.TryForEach
import Rdwarfs.Source.Format.Integrity

/-!
# Verifying an image

format/image.rs:171-186, 208-226: the hashes of every section, by one thread or, with the
`parallel` feature, by a pool of them. Of the pool only what rayon documents of `try_for_each` is
modelled: nothing fails when no item does, and otherwise some item's failure is the answer.
-/
namespace Rdwarfs.Source.Format.Image

open Lib.Machine Lib.TryForEach

/-- A file offset past the end of its word is the build's. -/
def payloadBytes (build : Build) (image : Image) (record : SectionRecord) : Result Bytes := do
  let start ← (Arith.machine build).add record.fileOffset headerLen
  image.readRange start record.header.payloadLen.toNat

variable (digests : Digests) (deep : Bool) (image : Image)

/-- The closure `one` of `verify_sections`. -/
def verifySection (record : SectionRecord) : Result Unit := do
  let bytes ← image.sectionBytes record
  Integrity.verifyXxh3 digests record.header bytes
  if deep then Integrity.verifySha512_256 digests record.header bytes

def verifySections : Result Unit := forM image.sections (verifySection digests deep image)

/-- `verify_sections` with the `parallel` feature: what rayon documents of its `try_for_each`,
which is not modelled. -/
def VerifiesSections : Result Unit → Prop :=
  TriesEach (verifySection digests deep image) image.sections

def verifyAll : Result Unit := verifySections digests false image

def verifyDeep : Result Unit := verifySections digests true image

end Rdwarfs.Source.Format.Image
