import Rdwarfs.Lib.Machine

/-!
# Errors and byte strings

The crate-wide error type, error.rs:12-153, and the byte strings every module reads. The texts
that `Display` adds to the fields are not modelled; an error of the operating system is one value.
-/
namespace Rdwarfs.Source

open Lib.Machine

abbrev Bytes := List UInt8

/-- `io` carries an operating-system error that nothing here inspects. -/
inductive Error where
  | io
  | truncatedHeader (offset : Nat)
  | badMagic (offset : Nat)
  | notADwarfsImage
  | unsupportedVersion (major minor : UInt8)
  | truncatedSection (number : UInt32) (offset : Nat)
  | corruptSectionIndex (reason : String)
  | integrityMismatch (number : UInt32) (kind : String)
  | capExceeded (field : String) (cap value : Nat)
  | codecDisabled (codec : String)
  | codecUnimplemented (codec : String)
  | sourceOutOfBounds (offset len sourceLen : Nat)
  | unsupportedFeature (name : String)
  | unknownCompression (value : UInt16)
  | decode (codec message : String)
  | encode (codec message : String)
  deriving DecidableEq, Repr

abbrev Result (α : Type) := Res Error α

/-- `u16::from_le_bytes` and its wider siblings. -/
def leNat : Bytes → Nat
  | [] => 0
  | byte :: rest => byte.toNat + 256 * leNat rest

theorem leNat_lt (bytes : Bytes) : leNat bytes < 256 ^ bytes.length := by
  induction bytes with
  | nil => simp [leNat]
  | cons byte rest ih =>
    have bound := byte.toNat_lt
    simp only [leNat, List.length_cons, Nat.pow_succ]
    omega

theorem leNat_append (front back : Bytes) :
    leNat (front ++ back) = leNat front + 256 ^ front.length * leNat back := by
  induction front with
  | nil => simp [leNat]
  | cons byte rest ih =>
    rw [List.cons_append, leNat, leNat, ih, List.length_cons, Nat.pow_succ', Nat.mul_add,
      Nat.mul_assoc, Nat.add_assoc]

/-- `u16::to_le_bytes` and its wider siblings. -/
def leBytes : (width : Nat) → Nat → Bytes
  | 0, _ => []
  | width + 1, value => UInt8.ofNat value :: leBytes width (value / 256)

@[simp] theorem leBytes_length (width value : Nat) : (leBytes width value).length = width := by
  induction width generalizing value with
  | zero => rfl
  | succ width ih => rw [leBytes, List.length_cons, ih]

theorem leNat_leBytes {width value : Nat} (fits : value < 256 ^ width) :
    leNat (leBytes width value) = value := by
  induction width generalizing value with
  | zero =>
    rw [Nat.pow_zero] at fits
    rw [leBytes, leNat]
    omega
  | succ width ih =>
    rw [Nat.pow_succ] at fits
    rw [leBytes, leNat, ih (by omega), UInt8.toNat_ofNat']
    omega

theorem leBytes_leNat (bytes : Bytes) : leBytes bytes.length (leNat bytes) = bytes := by
  induction bytes with
  | nil => rfl
  | cons byte rest ih =>
    have bound := byte.toNat_lt
    have low : UInt8.ofNat (byte.toNat + 256 * leNat rest) = byte := by
      rw [← UInt8.toNat_inj, UInt8.toNat_ofNat']
      omega
    have high : (byte.toNat + 256 * leNat rest) / 256 = leNat rest := by omega
    rw [List.length_cons, leNat, leBytes, low, high, ih]

/-- The `width` bytes at `offset`. -/
def field (bytes : Bytes) (offset width : Nat) : Bytes := (bytes.drop offset).take width

theorem field_of_split {bytes front mid back : Bytes} {offset width : Nat}
    (split : bytes = front ++ (mid ++ back)) (before : front.length = offset)
    (long : mid.length = width) : field bytes offset width = mid := by
  rw [field, split, ← before, ← long, List.drop_left, List.take_left]

theorem field_append (bytes : Bytes) (offset first second : Nat) :
    field bytes offset first ++ field bytes (offset + first) second =
      field bytes offset (first + second) := by
  rw [field, field, field, List.take_add, List.drop_drop]

theorem field_length {bytes : Bytes} {offset width : Nat} (inside : offset + width ≤ bytes.length) :
    (field bytes offset width).length = width := by
  rw [field, List.length_take, List.length_drop]
  omega

/-- A Rust slice never spans more than `isize::MAX` bytes. -/
def sliceLimit : Nat := 2 ^ 63

theorem sliceLimit_eq : sliceLimit = 9223372036854775808 := rfl

/-- `Vec::with_capacity(size)`, or `vec![0u8; size]`: "capacity overflow" past `isize::MAX`. -/
def allocate (size : Nat) : Result Unit := if size < sliceLimit then .ok () else panicked

theorem allocate_of_lt {size : Nat} (fits : size < sliceLimit) : allocate size = .ok () := if_pos fits

theorem allocate_eq_panicked {size : Nat} : allocate size = panicked ↔ sliceLimit ≤ size := by
  unfold allocate
  split <;> simp_all

end Rdwarfs.Source
