import Mathlib.Data.List.Basic
import Mathlib.Data.Nat.Bitwise

/-!
# Numbers packed into the bits of a byte string

Bits are counted from the lowest of the first byte on. A string stores a number where its bits
are those of the number, lowest first, at any offset and of any width; the number is then a
quotient and remainder of whatever number has all the bits of the string.
-/
namespace Rdwarfs.Lib.Bits

/-- Bit `k` of a byte string. -/
def bit (bytes : List UInt8) (k : Nat) : Option Bool :=
  bytes[k / 8]?.map fun byte => byte.toNat.testBit (k % 8)

/-- The `width` bits from `offset` on are those of `value`. -/
structure Stores (bytes : List UInt8) (offset width value : Nat) : Prop where
  low : value < 2 ^ width
  inside : offset + width ≤ 8 * bytes.length
  bits : ∀ k < width, bit bytes (offset + k) = some (value.testBit k)

instance (bytes : List UInt8) (offset width value : Nat) :
    Decidable (Stores bytes offset width value) :=
  decidable_of_iff (value < 2 ^ width ∧ offset + width ≤ 8 * bytes.length ∧
      ∀ k < width, bit bytes (offset + k) = some (value.testBit k))
    ⟨fun ⟨low, inside, bits⟩ => ⟨low, inside, bits⟩,
      fun stores => ⟨stores.low, stores.inside, stores.bits⟩⟩

/-- All bits of the string are those of `number`. -/
def Spells (bytes : List UInt8) (number : Nat) : Prop :=
  ∀ k b, bit bytes k = some b → number.testBit k = b

section Spelling

variable {bytes : List UInt8} {number : Nat}

theorem spells_nil : Spells [] number := by
  intro k b here
  simp [bit] at here

/-- A byte in front takes the lowest eight bits. -/
theorem spells_cons {byte : UInt8} (rest : Spells bytes number) :
    Spells (byte :: bytes) (byte.toNat + 256 * number) := by
  intro k b here
  have low : byte.toNat < 2 ^ 8 := byte.toNat_lt
  rw [show byte.toNat + 256 * number = 2 ^ 8 * number + byte.toNat by omega,
    Nat.testBit_two_pow_mul_add number low]
  split
  · next first =>
    rw [bit, Nat.div_eq_of_lt first, Nat.mod_eq_of_lt first] at here
    exact Option.some.inj here
  · next later =>
    refine rest (k - 8) b ?_
    have next_ : k / 8 = (k - 8) / 8 + 1 := by omega
    rwa [bit, next_, List.getElem?_cons_succ, show k % 8 = (k - 8) % 8 by omega] at here

end Spelling

section Stored

variable {bytes : List UInt8} {offset width value : Nat}

/-- No bits, no choice. -/
theorem stores_zero_iff : Stores bytes offset 0 value ↔ value = 0 ∧ offset ≤ 8 * bytes.length := by
  constructor
  · intro stores
    exact ⟨Nat.lt_one_iff.mp stores.low, stores.inside⟩
  · rintro ⟨rfl, inside⟩
    exact ⟨Nat.one_pos, inside, fun k below => absurd below (Nat.not_lt_zero k)⟩

/-- What is stored is read off any number with the bits of the string. -/
theorem Stores.value_eq {number : Nat} (stores : Stores bytes offset width value)
    (spells : Spells bytes number) : number / 2 ^ offset % 2 ^ width = value := by
  refine Nat.eq_of_testBit_eq fun k => ?_
  rw [Nat.testBit_mod_two_pow, Nat.testBit_div_two_pow]
  by_cases below : k < width
  · rw [decide_eq_true below, Bool.true_and, Nat.add_comm]
    exact spells _ _ (stores.bits k below)
  · have high : value < 2 ^ k :=
      Nat.lt_of_lt_of_le stores.low (Nat.pow_le_pow_right Nat.two_pos (Nat.le_of_not_lt below))
    rw [decide_eq_false below, Bool.false_and, Nat.testBit_lt_two_pow high]

end Stored

section Reading

theorem bit_of_spells {bytes : List UInt8} {number k : Nat} (spells : Spells bytes number)
    (inside : k < 8 * bytes.length) : bit bytes k = some (number.testBit k) := by
  have found : bit bytes k = some (bytes[k / 8].toNat.testBit (k % 8)) := by
    rw [bit, List.getElem?_eq_getElem (by omega)]
    rfl
  rw [found, spells k _ found]

/-- What a string stores anywhere is read off a number with its bits. -/
theorem stores_of_spells {bytes : List UInt8} {number offset width : Nat}
    (spells : Spells bytes number) (inside : offset + width ≤ 8 * bytes.length) :
    Stores bytes offset width (number / 2 ^ offset % 2 ^ width) where
  low := Nat.mod_lt _ (Nat.two_pow_pos width)
  inside := inside
  bits := by
    intro k below
    rw [bit_of_spells spells (by omega), Nat.testBit_mod_two_pow, Nat.testBit_div_two_pow,
      decide_eq_true below, Bool.true_and, Nat.add_comm]

end Reading

section Packing

/-- How many bits fields of these widths take. -/
def widths (fields : List (Nat × Nat)) : Nat := (fields.map Prod.fst).sum

/-- Fields of a width and a value each, one above the other. -/
def packed : List (Nat × Nat) → Nat
  | [] => 0
  | (width, value) :: rest => value + 2 ^ width * packed rest

theorem packed_lt {fields : List (Nat × Nat)} (fit : ∀ field ∈ fields, field.2 < 2 ^ field.1) :
    packed fields < 2 ^ widths fields := by
  induction fields with
  | nil => simp [packed, widths]
  | cons field rest ih =>
    obtain ⟨here, later⟩ := List.forall_mem_cons.mp fit
    have above := Nat.mul_le_mul_left (2 ^ field.1) (ih later)
    rw [widths, List.map_cons, List.sum_cons, Nat.pow_add, packed]
    rw [Nat.mul_succ] at above
    exact Nat.lt_of_lt_of_le (by omega) above

/-- A field is where the widths before it end. -/
theorem packed_field {before after : List (Nat × Nat)} {width value : Nat}
    (fit : ∀ field ∈ before, field.2 < 2 ^ field.1) (low : value < 2 ^ width) :
    packed (before ++ (width, value) :: after) / 2 ^ widths before % 2 ^ width = value := by
  induction before with
  | nil =>
    simp only [List.nil_append, packed, widths, List.map_nil, List.sum_nil, Nat.pow_zero, Nat.div_one]
    rw [Nat.add_mul_mod_self_left, Nat.mod_eq_of_lt low]
  | cons field rest ih =>
    obtain ⟨here, later⟩ := List.forall_mem_cons.mp fit
    rw [List.cons_append, packed, widths, List.map_cons, List.sum_cons, Nat.pow_add,
      ← Nat.div_div_eq_div_mul, Nat.add_mul_div_left _ _ (Nat.two_pow_pos _),
      Nat.div_eq_of_lt here, Nat.zero_add]
    exact ih later

end Packing

end Rdwarfs.Lib.Bits
