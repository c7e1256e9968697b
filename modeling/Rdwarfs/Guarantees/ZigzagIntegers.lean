import Rdwarfs.Guarantees.ExactVarints

/-!
# Signed integers

A signed integer is written as its zigzag word, which moves the sign into the lowest bit, and the
word as a varint. The reader moves the sign back with shifts of its own; both are what they are
on numbers for every word there is, the two extremes included. The narrower readers are the wide
one and a check of the range.
-/
namespace Rdwarfs.Guarantees.ZigzagIntegers

open Lib.Machine Lib.Compact Source Source.Metadata ThriftReader CompactDecoding ExactVarints

section Words

/-- Shifting in a zero and turning all bits over under a minus sign is zigzag. -/
theorem toNat_zigzag (x : Int64) :
    ((x <<< 1) ^^^ (x >>> 63)).toUInt64.toNat = zigzag x.toInt := by
  have word := x.toBitVec.isLt
  have shifted : ((x <<< 1) ^^^ (x >>> 63)).toUInt64.toNat =
      (x.toBitVec <<< 1 ^^^ x.toBitVec.sshiftRight 63).toNat := rfl
  have value : x.toInt = x.toBitVec.toInt := rfl
  rw [shifted, value, BitVec.toInt_eq_msb_cond]
  cases sign : x.toBitVec.msb with
  | false =>
    have small := BitVec.msb_eq_false_iff_two_mul_lt.mp sign
    have zero : x.toBitVec >>> 63 = 0#64 := by
      apply BitVec.eq_of_toNat_eq
      rw [BitVec.toNat_ushiftRight, Nat.shiftRight_eq_div_pow, BitVec.toNat_ofNat]
      omega
    rw [BitVec.sshiftRight_eq_of_msb_false sign, zero, BitVec.xor_zero, BitVec.toNat_shiftLeft,
      Nat.shiftLeft_eq, if_neg Bool.false_ne_true, zigzag, if_pos (by omega)]
    omega
  | true =>
    have large := BitVec.msb_eq_true_iff_two_mul_ge.mp sign
    have zero : ~~~x.toBitVec >>> 63 = 0#64 := by
      apply BitVec.eq_of_toNat_eq
      rw [BitVec.toNat_ushiftRight, BitVec.toNat_not, Nat.shiftRight_eq_div_pow, BitVec.toNat_ofNat]
      omega
    rw [BitVec.sshiftRight_eq_of_msb_true sign, zero, BitVec.not_zero, BitVec.xor_allOnes,
      BitVec.toNat_not, BitVec.toNat_shiftLeft, Nat.shiftLeft_eq, if_pos rfl, zigzag,
      if_neg (by omega)]
    omega

theorem zigzag_lt (x : Int64) : zigzag x.toInt < 2 ^ 64 := by
  rw [← toNat_zigzag]
  exact UInt64.toNat_lt _

/-- A minus sign again turns all bits over. -/
theorem toInt_unzigzagWord (v : UInt64) : (unzigzagWord v).toInt = unzigzag v := by
  have word := v.toNat_lt
  have value : (unzigzagWord v).toInt = (v.toBitVec >>> 1 ^^^ -(v.toBitVec &&& 1#64)).toInt := rfl
  have half : (v.toBitVec >>> 1).toNat = v.toNat / 2 := by
    rw [BitVec.toNat_ushiftRight]
    rfl
  have low : (v.toBitVec &&& 1#64).toNat = v.toNat % 2 := by
    rw [BitVec.toNat_and]
    exact Nat.and_two_pow_sub_one_eq_mod _ 1
  rw [value, unzigzag]
  split
  · next even =>
    have zero : v.toBitVec &&& 1#64 = 0#64 := BitVec.eq_of_toNat_eq (low.trans even)
    rw [zero, BitVec.neg_zero, BitVec.xor_zero, BitVec.toInt_eq_toNat_cond, half, if_pos (by omega)]
  · next odd =>
    have one : v.toBitVec &&& 1#64 = 1#64 := BitVec.eq_of_toNat_eq (low.trans (by simp; omega))
    rw [one, BitVec.neg_one_eq_allOnes, BitVec.xor_allOnes, BitVec.toInt_eq_toNat_cond,
      BitVec.toNat_not, half, if_neg (by omega)]
    omega

/-- The tests' encoder writes as few digits as there can be. -/
theorem writeVarint_eq (value : UInt64) : writeVarint value = leb value.toNat := by
  have split (value : UInt64) : (value >>> 7).toNat = value.toNat / 128 ∧
      (value &&& 0x7F).toUInt8.toNat = value.toNat % 128 := by
    refine ⟨?_, ?_⟩
    · rw [UInt64.toNat_shiftRight]
      exact Nat.shiftRight_eq_div_pow _ 7
    · have low : (value &&& 0x7F).toNat = value.toNat % 128 := by
        rw [UInt64.toNat_and]
        exact Nat.and_two_pow_sub_one_eq_mod _ 7
      rw [UInt64.toNat_toUInt8, low]
      omega
  fun_induction writeVarint value with
  | case1 value byte more ih =>
    obtain ⟨high, low⟩ := split value
    have large : ¬ value.toNat < 128 := by
      intro small
      refine more (UInt64.toNat_inj.mp ?_)
      rw [high, Nat.div_eq_of_lt small]
      rfl
    have marked : byte ||| 0x80 = UInt8.ofNat (128 + value.toNat % 128) := by
      have joined := Nat.two_pow_add_eq_or_of_lt (Nat.mod_lt value.toNat (by decide : 0 < 2 ^ 7)) 1
      rw [← UInt8.toNat_inj, UInt8.toNat_or, low, UInt8.toNat_ofNat', Nat.or_comm]
      change 2 ^ 7 * 1 ||| value.toNat % 2 ^ 7 = _
      rw [← joined]
      omega
    rw [leb, if_neg large, marked, ih, high]
  | case2 value byte last =>
    obtain ⟨high, low⟩ := split value
    have small : value.toNat < 128 := by
      have zero := congrArg UInt64.toNat (not_not.mp last)
      rw [high, UInt64.toNat_zero] at zero
      omega
    rw [leb, if_pos small, ← @UInt8.ofNat_toNat byte, low, Nat.mod_eq_of_lt small]

end Words

section Readers

variable {x : Int64} {reader : ThriftReader} {suffix : Bytes}

/-- The reader behind `bytes`. -/
def past (reader : ThriftReader) (bytes : Bytes) : ThriftReader :=
  { reader with pos := reader.pos + bytes.length }

theorem readVarintU64_zigzag (here : reader.bytes.drop reader.pos = writeZigzag x ++ suffix) :
    readVarintU64 reader = .ok (UInt64.ofNat (zigzag x.toInt), past reader (writeZigzag x)) := by
  have written : writeZigzag x = leb (zigzag x.toInt) := by
    rw [writeZigzag, writeVarint_eq, toNat_zigzag]
  have varint := varint_leb (zigzag_lt x)
  rw [← written] at varint
  exact readVarintU64_of_digits varint.digits varint.short here

theorem readZigzagI64_zigzag (here : reader.bytes.drop reader.pos = writeZigzag x ++ suffix) :
    readZigzagI64 reader = .ok (x, past reader (writeZigzag x)) := by
  have same : unzigzagWord (UInt64.ofNat (zigzag x.toInt)) = x := by
    rw [← Int64.toInt_inj, toInt_unzigzagWord, unzigzag_zigzag _ (zigzag_lt x)]
  change (readVarintU64 reader >>= fun read => .ok (unzigzagWord read.1, read.2)) = _
  rw [readVarintU64_zigzag here, ok_bind]
  simp only [same]

/-- The reader of numbers is that of words. -/
theorem readI64_eq (reader : ThriftReader) :
    readI64 reader = readZigzagI64 reader >>= fun read => .ok (read.1.toInt, read.2) := by
  change (readVarintU64 reader >>= fun read => .ok (unzigzag read.1, read.2)) =
    (readVarintU64 reader >>= fun read => .ok (unzigzagWord read.1, read.2)) >>= _
  cases readVarintU64 reader with
  | error failure => rfl
  | ok answer => simp only [ok_bind, toInt_unzigzagWord]

theorem readI64_zigzag (here : reader.bytes.drop reader.pos = writeZigzag x ++ suffix) :
    readI64 reader = .ok (x.toInt, past reader (writeZigzag x)) := by
  rw [readI64_eq, readZigzagI64_zigzag here, ok_bind]

/-- A read that returns `value` and ends at `stop` where the type has that value, and is an error
where it has none. -/
def Narrows {α : Type} (toInt : α → Int) (value : Int) (stop : ThriftReader)
    (read : Except (Failure Error) (α × ThriftReader)) : Prop :=
  (∃ n, toInt n = value ∧ read = .ok (n, stop)) ∨
    (∀ n, toInt n ≠ value) ∧ ∃ reason, read = fail reason

/-- The wide read, and a check that it fits the range of the narrow type. -/
theorem narrows_of_readI64 {α : Type} {toInt : α → Int} {ofInt : Int → α} {half value : Int}
    {message : Int → Error} {stop : ThriftReader}
    (range : ∀ n, -half ≤ toInt n ∧ toInt n < half)
    (inverse : ∀ v, -half ≤ v → v < half → toInt (ofInt v) = v)
    (read : readI64 reader = .ok (value, stop)) :
    Narrows toInt value stop ((do
      let v ← readI64
      if -half ≤ v ∧ v < half then return ofInt v
      else failWith (message v) : Reader α) reader) := by
  change Narrows toInt value stop (readI64 reader >>= _)
  rw [read, ok_bind]
  by_cases fits : -half ≤ value ∧ value < half
  · simp only [if_pos fits]
    exact Or.inl ⟨ofInt value, inverse value fits.1 fits.2, rfl⟩
  · simp only [if_neg fits]
    exact Or.inr ⟨fun n same => fits (same ▸ range n), message value, rfl⟩

end Readers

/-- Every 64-bit integer is read back, by the narrower readers where it fits, and what follows it
is left alone. -/
theorem zigzag_round_trip (x : Int64) (front suffix : Bytes) (last : Int16) (stack : List Int16) :
    let start : ThriftReader := ⟨front ++ (writeZigzag x ++ suffix), front.length, last, stack⟩
    let stop : ThriftReader := past start (writeZigzag x)
    readZigzagI64 start = .ok (x, stop) ∧ readI64 start = .ok (x.toInt, stop) ∧
      Narrows Int32.toInt x.toInt stop (readI32 start) ∧
      Narrows Int16.toInt x.toInt stop (readI16 start) ∧
      stop.bytes.drop stop.pos = suffix := by
  intro start stop
  have here : start.bytes.drop start.pos = writeZigzag x ++ suffix := List.drop_left
  have read := readI64_zigzag here
  refine ⟨readZigzagI64_zigzag here, read, ?_, ?_, ?_⟩
  · exact narrows_of_readI64 (fun n => ⟨n.le_toInt, n.toInt_lt⟩)
      (fun v least most => Int32.toInt_ofInt_of_le least most) read
  · exact narrows_of_readI64 (fun n => ⟨n.le_toInt, n.toInt_lt⟩)
      (fun v least most => Int16.toInt_ofInt_of_le least most) read
  · simp [start, stop, past, ← List.append_assoc]

end Rdwarfs.Guarantees.ZigzagIntegers
