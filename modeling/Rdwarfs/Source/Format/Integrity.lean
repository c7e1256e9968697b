import Rdwarfs.Source.Format.Image

/-!
# Section integrity

format/integrity.rs:25-73: two hashes of one section, over two of its suffixes. Both hash
functions are other packages'; nothing is assumed of their values here.
-/
namespace Rdwarfs.Source.Format

open Lib.Machine Codecs

structure Digests where
  /-- XXH3-64. -/
  xxh3_64 : Bytes → UInt64
  /-- SHA-512/256, 32 bytes. -/
  sha512_256 : Bytes → Bytes

namespace Integrity

variable (digests : Digests)

def shaCoverStart : Nat := 0x28

def xxhCoverStart : Nat := 0x30

def computeXxh3 (sectionBytes : Bytes) : Result UInt64 := do
  let covered ← slice sectionBytes xxhCoverStart sectionBytes.length
  return digests.xxh3_64 covered

def computeSha512_256 (sectionBytes : Bytes) : Result Bytes := do
  let covered ← slice sectionBytes shaCoverStart sectionBytes.length
  return digests.sha512_256 covered

def verifyXxh3 (header : SectionHeader) (sectionBytes : Bytes) : Result Unit := do
  let computed ← computeXxh3 digests sectionBytes
  if computed = header.xxh3_64 then return ()
  else fail (.integrityMismatch header.number "xxh3")

def verifySha512_256 (header : SectionHeader) (sectionBytes : Bytes) : Result Unit := do
  let computed ← computeSha512_256 digests sectionBytes
  if computed = header.sha512_256 then return ()
  else fail (.integrityMismatch header.number "sha512_256")

/-- Verify both hashes for a section. -/
def verify (header : SectionHeader) (sectionBytes : Bytes) : Result Unit := do
  verifyXxh3 digests header sectionBytes
  verifySha512_256 digests header sectionBytes

/-- The check an image makes of a section it reads. -/
theorem verifyXxh3_eq (libs : Libraries) (same : digests.xxh3_64 = libs.xxh3)
    (header : SectionHeader) (sectionBytes : Bytes) :
    verifyXxh3 digests header sectionBytes = Image.verifyXxh3 libs header sectionBytes := by
  simp only [verifyXxh3, computeXxh3, Image.verifyXxh3, same, xxhCoverStart, Image.xxhCoverStart]
  cases slice sectionBytes 0x30 sectionBytes.length <;> rfl

end Integrity

end Rdwarfs.Source.Format
