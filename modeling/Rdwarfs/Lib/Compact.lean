import Mathlib.Algebra.Ring.Int.Defs
import Mathlib.Algebra.Ring.Nat
import Mathlib.Tactic.Common

/-!
# The compact struct encoding

Structs written as fields, each under a header of a type code and an id, up to a stop byte.
Lengths and integers are base-128 numbers, seven bits a byte, lowest first; a field's id is
the gap from the one before it, or written out. The grammar says which bytes are a value of
which kind, and which are an encoding of a given record: its own fields in any order, those
at their default written or not, and fields it does not know between them.
-/
namespace Rdwarfs.Lib.Compact

section Integers

/-- Base-128 digits, the high bit set on all but the last. -/
inductive Digits : Nat → List UInt8 → Prop
  | last (byte : UInt8) (ends : byte.toNat < 128) : Digits byte.toNat [byte]
  | more (byte : UInt8) {rest : Nat} {bytes : List UInt8} (goesOn : 128 ≤ byte.toNat)
      (digits : Digits rest bytes) : Digits (byte.toNat - 128 + 128 * rest) (byte :: bytes)

/-- A 64-bit word takes at most ten of them. -/
structure Varint (n : Nat) (bytes : List UInt8) : Prop where
  digits : Digits n bytes
  short : bytes.length ≤ 10
  word : n < 2 ^ 64

/-- Small magnitudes of either sign as small naturals. -/
def zigzag (n : Int) : Nat := if 0 ≤ n then (2 * n).toNat else (-2 * n - 1).toNat

/-- A signed integer of `width` bits. -/
structure Integer (width : Nat) (n : Int) (bytes : List UInt8) : Prop where
  least : -(2 ^ (width - 1)) ≤ n
  most : n < 2 ^ (width - 1)
  varint : Varint (zigzag n) bytes

/-- A blob: its length and its bytes. -/
def Blob (data : List UInt8) (bytes : List UInt8) : Prop :=
  ∃ size, Varint data.length size ∧ bytes = size ++ data

end Integers

section Digits

/-- One number at most is at the start of a byte string. -/
theorem Digits.unique {n m : Nat} {one other back rest : List UInt8} (first : Digits n one)
    (second : Digits m other) (same : one ++ back = other ++ rest) : one = other ∧ n = m := by
  induction first generalizing m other with
  | last byte ends =>
    cases second with
    | last =>
      obtain ⟨rfl, _⟩ := List.cons_eq_cons.mp same
      exact ⟨rfl, rfl⟩
    | more _ goesOn _ =>
      obtain ⟨rfl, _⟩ := List.cons_eq_cons.mp same
      exact absurd ends (Nat.not_lt.mpr goesOn)
  | more byte goesOn _ ih =>
    cases second with
    | last _ ends =>
      obtain ⟨rfl, _⟩ := List.cons_eq_cons.mp same
      exact absurd ends (Nat.not_lt.mpr goesOn)
    | more _ _ later =>
      obtain ⟨rfl, after⟩ := List.cons_eq_cons.mp same
      obtain ⟨rfl, rfl⟩ := ih later after
      exact ⟨rfl, rfl⟩

/-- The last digit is the highest. -/
theorem Digits.split {n : Nat} {bytes : List UInt8} (digits : Digits n bytes) :
    ∃ (front : List UInt8) (byte : UInt8) (low : Nat), bytes = front ++ [byte] ∧
      (∀ other ∈ front, 128 ≤ other.toNat) ∧ byte.toNat < 128 ∧ low < 128 ^ front.length ∧
      n = low + 128 ^ front.length * byte.toNat := by
  induction digits with
  | last byte ends => exact ⟨[], byte, 0, rfl, by simp, ends, by simp, by simp⟩
  | more first goesOn _ ih =>
    obtain ⟨front, byte, low, rfl, continued, ends, small, rfl⟩ := ih
    have word := first.toNat_lt
    refine ⟨first :: front, byte, first.toNat - 128 + 128 * low, rfl, ?_, ends, ?_, ?_⟩
    · simpa using ⟨goesOn, continued⟩
    · rw [List.length_cons, Nat.pow_succ']
      omega
    · rw [List.length_cons, Nat.pow_succ', Nat.mul_add, Nat.mul_assoc, Nat.add_assoc]

/-- A number's digits, or bytes that all go on. -/
theorem digits_or_continued (limit : Nat) (bytes : List UInt8) :
    (∃ (n : Nat) (front back : List UInt8), bytes = front ++ back ∧ Digits n front ∧
      front.length ≤ limit) ∨ ∀ byte ∈ bytes.take limit, 128 ≤ byte.toNat := by
  induction limit generalizing bytes with
  | zero => exact Or.inr (by simp)
  | succ limit ih =>
    cases bytes with
    | nil => exact Or.inr (by simp)
    | cons byte rest =>
      by_cases ends : byte.toNat < 128
      · exact Or.inl ⟨_, [byte], rest, rfl, .last byte ends, by simp⟩
      · have goesOn := Nat.le_of_not_lt ends
        rcases ih rest with ⟨n, front, back, rfl, digits, few⟩ | continued
        · exact Or.inl ⟨_, byte :: front, back, rfl, .more byte goesOn digits, by simpa using few⟩
        · exact Or.inr (by simpa using ⟨goesOn, continued⟩)

/-- The digits of a number, as few as there can be. -/
def leb (n : Nat) : List UInt8 :=
  if n < 128 then [UInt8.ofNat n] else UInt8.ofNat (128 + n % 128) :: leb (n / 128)
termination_by n
decreasing_by omega

theorem digits_leb (n : Nat) : Digits n (leb n) := by
  fun_induction leb n with
  | case1 n small =>
    have byte : (UInt8.ofNat n).toNat = n := by
      rw [UInt8.toNat_ofNat']
      omega
    have digits := Digits.last (UInt8.ofNat n) (by omega)
    rwa [byte] at digits
  | case2 n large ih =>
    have byte : (UInt8.ofNat (128 + n % 128)).toNat = 128 + n % 128 := by
      rw [UInt8.toNat_ofNat']
      omega
    have digits := Digits.more (UInt8.ofNat (128 + n % 128)) (by omega) ih
    rwa [byte, show 128 + n % 128 - 128 + 128 * (n / 128) = n by omega] at digits

theorem length_leb_le {n count : Nat} (some : 0 < count) (small : n < 128 ^ count) :
    (leb n).length ≤ count := by
  induction count generalizing n with
  | zero => exact absurd some (Nat.lt_irrefl 0)
  | succ count ih =>
    rw [leb]
    split
    · simp
    · next large =>
      rw [Nat.pow_succ'] at small
      have more : 0 < count := by
        rcases Nat.eq_zero_or_pos count with rfl | more
        · simp at small
          omega
        · exact more
      have fewer := @ih (n / 128) more (Nat.div_lt_of_lt_mul small)
      simpa using fewer

theorem varint_leb {n : Nat} (word : n < 2 ^ 64) : Varint n (leb n) where
  digits := digits_leb n
  short := length_leb_le (by decide) (Nat.lt_trans word (by decide))
  word := word

end Digits

/-- The kinds of values. A boolean field is its own kind, and has no payload. -/
inductive Kind where
  | boolTrue
  | boolFalse
  | i8
  | i16
  | i32
  | i64
  | double
  | binary
  | list
  | set
  | map
  | struct
  deriving DecidableEq, Repr

namespace Kind

def code : Kind → Nat
  | boolTrue => 1
  | boolFalse => 2
  | i8 => 3
  | i16 => 4
  | i32 => 5
  | i64 => 6
  | double => 7
  | binary => 8
  | list => 9
  | set => 10
  | map => 11
  | struct => 12

theorem code_bounds (kind : Kind) : 1 ≤ kind.code ∧ kind.code ≤ 12 := by
  cases kind <;> decide

/-- Two codes, or a small number and a code, in one byte. -/
def packed (high : Nat) (kind : Kind) : UInt8 := UInt8.ofNat (16 * high + kind.code)

def isBool (kind : Kind) : Prop := kind = boolTrue ∨ kind = boolFalse

end Kind

/-- The header of field `id` after field `last`: a gap of at most fifteen, or the id. -/
inductive FieldHead (last : Int16) (kind : Kind) (id : Int16) : List UInt8 → Prop
  | gap (gap : Nat) (least : 1 ≤ gap) (most : gap ≤ 15) (sum : id.toInt = last.toInt + gap) :
      FieldHead last kind id [kind.packed gap]
  | explicit {bytes : List UInt8} (integer : Integer 16 id.toInt bytes) :
      FieldHead last kind id (kind.packed 0 :: bytes)

/-- The header of a list or a set, short below fifteen elements or long. -/
inductive ListHead (element : Kind) (count : Nat) : List UInt8 → Prop
  | short (few : count < 15) : ListHead element count [element.packed count]
  | long {size : List UInt8} (counted : count < 2 ^ 32) (varint : Varint count size) :
      ListHead element count (element.packed 15 :: size)

/-- The header of a map. An empty one is its count alone. -/
inductive MapHead (key value : Kind) : (count : Nat) → List UInt8 → Prop
  | empty {size : List UInt8} (varint : Varint 0 size) : MapHead key value 0 size
  | typed {count : Nat} {size : List UInt8} (some : 0 < count) (counted : count < 2 ^ 32)
      (varint : Varint count size) : MapHead key value count (size ++ [value.packed key.code])

/-- The parts of an encoding: a value behind its field header, one inside a container, what a
container holds, and a struct's fields after the field `last`. -/
inductive Part where
  | value (kind : Kind)
  | element (kind : Kind)
  | elements (kind : Kind) (count : Nat)
  | pairs (key value : Kind) (count : Nat)
  | fields (last : Int16)

/-- Some value's encoding. -/
inductive Encoded : Part → List UInt8 → Prop
  | bool {kind : Kind} (isBool : kind.isBool) : Encoded (.value kind) []
  | i8 (byte : UInt8) : Encoded (.value .i8) [byte]
  | i16 {n : Int} {bytes : List UInt8} (integer : Integer 16 n bytes) : Encoded (.value .i16) bytes
  | i32 {n : Int} {bytes : List UInt8} (integer : Integer 32 n bytes) : Encoded (.value .i32) bytes
  | i64 {n : Int} {bytes : List UInt8} (integer : Integer 64 n bytes) : Encoded (.value .i64) bytes
  | double {bytes : List UInt8} (eight : bytes.length = 8) : Encoded (.value .double) bytes
  | binary {data bytes : List UInt8} (blob : Blob data bytes) : Encoded (.value .binary) bytes
  | list {kind element : Kind} {count : Nat} {head body : List UInt8}
      (container : kind = .list ∨ kind = .set) (header : ListHead element count head)
      (elements : Encoded (.elements element count) body) : Encoded (.value kind) (head ++ body)
  | map {key value : Kind} {count : Nat} {head body : List UInt8}
      (header : MapHead key value count head)
      (pairs : Encoded (.pairs key value count) body) : Encoded (.value .map) (head ++ body)
  | struct {body : List UInt8} (fields : Encoded (.fields 0) body) : Encoded (.value .struct) body
  | flag {kind : Kind} (isBool : kind.isBool) (byte : UInt8) : Encoded (.element kind) [byte]
  | element {kind : Kind} {bytes : List UInt8} (other : ¬ kind.isBool)
      (value : Encoded (.value kind) bytes) : Encoded (.element kind) bytes
  | noElements {kind : Kind} : Encoded (.elements kind 0) []
  | elements {kind : Kind} {count : Nat} {first rest : List UInt8}
      (head : Encoded (.element kind) first)
      (tail : Encoded (.elements kind count) rest) :
      Encoded (.elements kind (count + 1)) (first ++ rest)
  | noPairs {key value : Kind} : Encoded (.pairs key value 0) []
  | pairs {key value : Kind} {count : Nat} {first second rest : List UInt8}
      (left : Encoded (.element key) first) (right : Encoded (.element value) second)
      (tail : Encoded (.pairs key value count) rest) :
      Encoded (.pairs key value (count + 1)) (first ++ (second ++ rest))
  | stop {last : Int16} : Encoded (.fields last) [0]
  | field {last id : Int16} {kind : Kind} {head payload rest : List UInt8}
      (header : FieldHead last kind id head) (value : Encoded (.value kind) payload)
      (tail : Encoded (.fields id) rest) : Encoded (.fields last) (head ++ (payload ++ rest))

section Records

variable {α : Type}

/-- Values one after the other. -/
inductive Sequence (writes : α → List UInt8 → Prop) : List α → List UInt8 → Prop
  | nil : Sequence writes [] []
  | cons {value : α} {values : List α} {first rest : List UInt8} (head : writes value first)
      (tail : Sequence writes values rest) : Sequence writes (value :: values) (first ++ rest)

/-- A list or a set of values of one kind. -/
def Listed (element : Kind) (writes : α → List UInt8 → Prop) (values : List α)
    (bytes : List UInt8) : Prop :=
  ∃ head body, ListHead element values.length head ∧ Sequence writes values body ∧
    bytes = head ++ body

/-- A map from signed 16-bit keys to structs, its entries in the order given. -/
def Keyed (writes : α → List UInt8 → Prop) (entries : List (Int16 × α))
    (bytes : List UInt8) : Prop :=
  ∃ head body, MapHead .i16 .struct entries.length head ∧
    Sequence (fun entry bytes => ∃ key value, Integer 16 entry.1.toInt key ∧
      writes entry.2 value ∧ bytes = key ++ value) entries body ∧
    bytes = head ++ body

/-- A struct type: its fields, what an empty struct means, when two values agree on a field,
and how a value's field is written. -/
structure Record (α : Type) where
  known : List Int16
  start : α
  agree : Int16 → α → α → Prop
  writes : α → Int16 → Kind → List UInt8 → Prop

/-- The fields of `value` that are still `todo`, after field `last`. -/
inductive Record.Fields (record : Record α) (value : α) :
    (last : Int16) → (todo : List Int16) → List UInt8 → Prop
  | stop {last : Int16} {todo : List Int16}
      (omitted : ∀ id ∈ todo, record.agree id record.start value) :
      Record.Fields record value last todo [0]
  | own {last id : Int16} {todo : List Int16} {kind : Kind} {head payload rest : List UInt8}
      (waiting : id ∈ todo) (header : FieldHead last kind id head)
      (written : record.writes value id kind payload)
      (tail : Record.Fields record value id (todo.erase id) rest) :
      Record.Fields record value last todo (head ++ (payload ++ rest))
  | extra {last id : Int16} {todo : List Int16} {kind : Kind} {head payload rest : List UInt8}
      (unknown : id ∉ record.known) (header : FieldHead last kind id head)
      (encoded : Encoded (.value kind) payload)
      (tail : Record.Fields record value id todo rest) :
      Record.Fields record value last todo (head ++ (payload ++ rest))

/-- The encodings of a value. -/
def Record.Encodes (record : Record α) (value : α) (bytes : List UInt8) : Prop :=
  record.Fields value 0 record.known bytes

end Records

section Lengths

theorem Digits.length_pos {n : Nat} {bytes : List UInt8} (digits : Digits n bytes) :
    0 < bytes.length := by
  cases digits <;> simp

theorem FieldHead.length_pos {last id : Int16} {kind : Kind} {bytes : List UInt8}
    (header : FieldHead last kind id bytes) : 0 < bytes.length := by
  cases header <;> simp

theorem ListHead.length_pos {element : Kind} {count : Nat} {bytes : List UInt8}
    (header : ListHead element count bytes) : 0 < bytes.length := by
  cases header <;> simp

theorem MapHead.length_pos {key value : Kind} {count : Nat} {bytes : List UInt8}
    (header : MapHead key value count bytes) : 0 < bytes.length := by
  cases header with
  | empty varint => exact varint.digits.length_pos
  | typed _ _ _ => simp

/-- A struct's fields end in a stop byte. -/
theorem Encoded.fields_pos {last : Int16} {bytes : List UInt8}
    (encoded : Encoded (.fields last) bytes) : 0 < bytes.length := by
  cases encoded with
  | stop => simp
  | field header _ _ =>
    have some := header.length_pos
    simp only [List.length_append]
    omega

theorem Record.Fields.length_pos {record : Record α} {value : α} {last : Int16}
    {todo : List Int16} {bytes : List UInt8} (fields : record.Fields value last todo bytes) :
    0 < bytes.length := by
  cases fields with
  | stop => simp
  | own _ header _ _ | extra _ header _ _ =>
    have some := header.length_pos
    simp only [List.length_append]
    omega

end Lengths

end Rdwarfs.Lib.Compact
