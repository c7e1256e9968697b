import Rdwarfs.Guarantees.FrozenArithmetic
import Rdwarfs.Guarantees.PackedLists
import Rdwarfs.Source.Metadata.Bitbuf

/-!
# Bits, wherever they lie

A read gathers the bytes its bits are in, nine of them at most, moves the first bit down and masks
the rest away. What comes out is a quotient and remainder of the number that the whole buffer
spells, so bit `k` of the result is bit `offset + k` of the buffer, and a field packed there by
anyone is read back.
-/
namespace Rdwarfs.Guarantees.BitReader

open Lib.Machine Lib.Bits Source Source.Metadata FrozenArithmetic PackedLists

section Gathering

/-- The bytes gathered so far take the low end of the accumulator, and the next one is put right
above them. -/
theorem toNat_gathered {acc : BitVec 128} {i : Nat} (low : acc.toNat < 256 ^ i) (room : i < 16)
    (byte : UInt8) : (acc ||| byte.toBitVec.setWidth 128 <<< (i * 8)).toNat =
      acc.toNat + 256 ^ i * byte.toNat := by
  have power : 256 ^ i = 2 ^ (i * 8) := by
    rw [Nat.mul_comm, Nat.pow_mul]
  have bound := byte.toNat_lt
  have top : byte.toNat * 2 ^ (i * 8) < 2 ^ 128 := by
    have widest : 2 ^ (i * 8) ≤ 2 ^ 120 := Nat.pow_le_pow_right (by decide) (by omega)
    have most := Nat.mul_le_mul (Nat.le_of_lt_succ bound) widest
    omega
  have same : byte.toBitVec.toNat = byte.toNat := rfl
  rw [power] at low ⊢
  rw [BitVec.toNat_or, BitVec.toNat_shiftLeft, BitVec.toNat_setWidth, same,
    Nat.mod_eq_of_lt (Nat.lt_trans bound (by decide)), Nat.shiftLeft_eq, Nat.mod_eq_of_lt top,
    Nat.or_comm, Nat.mul_comm, ← Nat.two_pow_add_eq_or_of_lt low, Nat.add_comm]

/-- No byte outside the buffer is looked at where the window is inside. -/
theorem gather_eq {bytes : Bytes} {byteOff left i : Nat} {acc : BitVec 128}
    (inside : byteOff + i + left ≤ bytes.length) (room : i + left ≤ 16)
    (low : acc.toNat < 256 ^ i) :
    BitBuf.gather bytes byteOff left i acc =
      .ok (BitVec.ofNat 128 (acc.toNat +
        256 ^ i * leNat ((bytes.drop (byteOff + i)).take left))) := by
  induction left generalizing i acc with
  | zero => simp [BitBuf.gather, leNat]
  | succ left ih =>
    have here : (index bytes (byteOff + i) : Result UInt8) = .ok bytes[byteOff + i] :=
      index_of_getElem? (List.getElem?_eq_getElem (by omega))
    have added := toNat_gathered low (by omega) bytes[byteOff + i]
    have bound := bytes[byteOff + i].toNat_lt
    have next : acc.toNat + 256 ^ i * bytes[byteOff + i].toNat < 256 ^ (i + 1) := by
      have most := Nat.mul_le_mul_left (256 ^ i) (Nat.le_of_lt_succ bound)
      rw [Nat.pow_succ]
      omega
    rw [BitBuf.gather, here, ok_bind, ih (by omega) (by omega) (by rw [added]; exact next), added,
      List.drop_eq_getElem_cons (by omega : byteOff + i < bytes.length), List.take_succ_cons,
      leNat, Nat.mul_add, ← Nat.mul_assoc, ← Nat.pow_succ, Nat.add_assoc, Nat.add_assoc byteOff]

theorem toNat_mask {numBits : UInt32} (narrow : numBits.toNat ≤ 64) :
    (BitBuf.mask numBits).toNat = 2 ^ numBits.toNat - 1 := by
  rw [BitBuf.mask]
  split
  · next full =>
    rw [full]
    rfl
  · next part =>
    have less : numBits.toNat < 64 := by
      refine Nat.lt_of_le_of_ne narrow fun full => part (UInt32.toNat_inj.mp full)
    have small : 2 ^ numBits.toNat < 2 ^ 128 := Nat.pow_lt_pow_right (by decide) (by omega)
    have one : (1#128 <<< numBits.toNat).toNat = 2 ^ numBits.toNat := by
      rw [BitVec.toNat_shiftLeft, Nat.shiftLeft_eq]
      change 1 * 2 ^ numBits.toNat % 2 ^ 128 = _
      rw [Nat.one_mul, Nat.mod_eq_of_lt small]
    have le : 1#128 ≤ 1#128 <<< numBits.toNat := by
      rw [BitVec.le_def, one]
      exact Nat.one_le_two_pow
    rw [BitVec.toNat_sub_of_le le, one]
    rfl

end Gathering

section Numbers

variable {build : Build} {bytes : Bytes} {bitOffset : UInt64} {numBits : UInt32}

/-- The words that say which bytes to gather do not leave their range. -/
theorem span_toNat (bitOffset : UInt64) (narrow : numBits.toNat ≤ 64) :
    (bitOffset % 8).toUInt32.toNat = bitOffset.toNat % 8 ∧
      (((bitOffset % 8).toUInt32 + numBits + 7) / 8).toNat =
        (bitOffset.toNat % 8 + numBits.toNat + 7) / 8 := by
  have shift : (bitOffset % 8).toUInt32.toNat = bitOffset.toNat % 8 := by
    rw [UInt64.toNat_toUInt32, UInt64.toNat_mod]
    exact Nat.mod_eq_of_lt (Nat.lt_trans (Nat.mod_lt _ (by decide)) (by decide))
  refine ⟨shift, ?_⟩
  rw [UInt32.toNat_div, UInt32.toNat_add, UInt32.toNat_add, shift]
  simp only [UInt32.reduceToNat]
  omega

/-- Shifting and masking the accumulator leaves a quotient and a remainder. -/
theorem toNat_masked {number shift : Nat} (low : number < 2 ^ 128) (narrow : numBits.toNat ≤ 64) :
    (UInt64.ofBitVec ((BitVec.ofNat 128 number >>> shift &&& BitBuf.mask numBits).setWidth 64)).toNat =
      number / 2 ^ shift % 2 ^ numBits.toNat := by
  have small : number / 2 ^ shift % 2 ^ numBits.toNat < 2 ^ 64 :=
    Nat.lt_of_lt_of_le (Nat.mod_lt _ (Nat.two_pow_pos _)) (Nat.pow_le_pow_right (by decide) narrow)
  rw [UInt64.toNat_ofBitVec, BitVec.toNat_setWidth, BitVec.toNat_and, BitVec.toNat_ushiftRight,
    toNat_mask narrow, BitVec.toNat_ofNat, Nat.mod_eq_of_lt low, Nat.shiftRight_eq_div_pow,
    Nat.and_two_pow_sub_one_eq_mod, Nat.mod_eq_of_lt small]

/-- Inside the buffer, gathering and masking words is slicing and dividing numbers. -/
theorem gathered_toNat (narrow : numBits.toNat ≤ 64)
    (inside : bitOffset.toNat + numBits.toNat ≤ 8 * bytes.length) :
    ((BitBuf.gather bytes (bitOffset / 8).toNat
        (((bitOffset % 8).toUInt32 + numBits + 7) / 8).toNat 0 0) >>= fun acc =>
      .ok (UInt64.ofBitVec ((acc >>> (bitOffset % 8).toUInt32.toNat &&&
        BitBuf.mask numBits).setWidth 64))).map UInt64.toNat =
    (slice bytes (bitOffset.toNat / 8) (bitOffset.toNat / 8 +
        (bitOffset.toNat % 8 + numBits.toNat + 7) / 8) : Result Bytes) >>= fun window =>
      .ok (leNat window / 2 ^ (bitOffset.toNat % 8) % 2 ^ numBits.toNat) := by
  obtain ⟨shift, span⟩ := span_toNat bitOffset narrow
  have first : (bitOffset / 8).toNat = bitOffset.toNat / 8 := UInt64.toNat_div ..
  have whole : leNat ((bytes.drop (bitOffset.toNat / 8)).take
      ((bitOffset.toNat % 8 + numBits.toNat + 7) / 8)) < 2 ^ 128 := by
    refine Nat.lt_of_lt_of_le (leNat_lt _) ?_
    have nine := List.length_take_le ((bitOffset.toNat % 8 + numBits.toNat + 7) / 8)
      (bytes.drop (bitOffset.toNat / 8))
    exact Nat.pow_le_pow_right (by decide : 0 < 256) (by omega : _ ≤ 16)
  rw [first, span, shift, gather_eq (by omega) (by omega) (by simp), ok_bind,
    slice_of_le (by omega) (by omega), ok_bind, Nat.add_sub_cancel_left]
  have zero : (0 : BitVec 128).toNat = 0 := rfl
  simp only [Except.map, zero, Nat.pow_zero, Nat.one_mul, Nat.zero_add, Nat.add_zero]
  rw [toNat_masked whole narrow]

/-- The reader of words returns what the reader of numbers does, errors and panics included. -/
theorem readU64_toNat (build : Build) (bytes : Bytes) (bitOffset : UInt64) (numBits : UInt32) :
    (BitBuf.readU64 build bytes bitOffset numBits).map UInt64.toNat =
      readU64 (.machine build) bytes bitOffset.toNat numBits.toNat := by
  by_cases none_ : numBits = 0
  · subst none_
    rfl
  have some : ¬ numBits.toNat = 0 := fun zero => none_ (UInt32.toNat_inj.mp zero)
  rw [BitBuf.readU64, if_neg none_, readU64, if_neg some]
  by_cases wide : numBits.toNat > 64
  · rw [refuseIf_of (show numBits > 64 from wide), refuseIf_of wide]
    rfl
  rw [refuseIf_of_not (show ¬ numBits > 64 from wide), refuseIf_of_not wide, ok_bind, ok_bind]
  cases added : (Arith.machine build).checkedAdd bitOffset.toNat numBits.toNat with
  | none => rfl
  | some endBit =>
    cases timed : BitBuf.bitLen build bytes with
    | error failure =>
      rw [BitBuf.bitLen] at timed
      rw [timed]
      rfl
    | ok len =>
      rw [BitBuf.bitLen] at timed
      rw [timed]
      by_cases beyond : endBit > len
      · simp only [okOr_some, ok_bind, refuseIf_of beyond, error_bind]
        rfl
      · have most := mul_le timed
        have within := checkedAdd_eq_add added
        simp only [okOr_some, ok_bind, refuseIf_of_not beyond]
        exact gathered_toNat (Nat.le_of_not_lt wide) (by omega)

/-- What is read is stored there. -/
theorem stores_of_readU64 {value : UInt64}
    (returned : BitBuf.readU64 build bytes bitOffset numBits = .ok value) :
    numBits = 0 ∧ value = 0 ∨ numBits.toNat ≤ 64 ∧
      Stores bytes bitOffset.toNat numBits.toNat value.toNat := by
  by_cases none_ : numBits = 0
  · rw [BitBuf.readU64, if_pos none_] at returned
    cases returned
    exact Or.inl ⟨none_, rfl⟩
  · have same := readU64_toNat build bytes bitOffset numBits
    rw [returned] at same
    obtain ⟨narrow, inside, number⟩ := readU64_eq_ok
      (Nat.pos_of_ne_zero fun zero => none_ (UInt32.toNat_inj.mp zero)) same.symm
    exact Or.inr ⟨narrow, number ▸ stores_of_spells (spells_leNat bytes) inside⟩

theorem readU64_of_number {value : Nat}
    (number : readU64 (.machine build) bytes bitOffset.toNat numBits.toNat = .ok value) :
    BitBuf.readU64 build bytes bitOffset numBits = .ok (UInt64.ofNat value) := by
  rw [← readU64_toNat] at number
  cases read : BitBuf.readU64 build bytes bitOffset numBits with
  | error failure =>
    rw [read] at number
    cases number
  | ok word =>
    rw [read] at number
    cases number
    rw [UInt64.ofNat_toNat]

/-- What is stored in the buffer is read. -/
theorem readU64_of_stores {value : Nat} (short : 8 * bytes.length < wordLimit)
    (narrow : numBits.toNat ≤ 64) (stores : Stores bytes bitOffset.toNat numBits.toNat value) :
    BitBuf.readU64 build bytes bitOffset numBits = .ok (UInt64.ofNat value) := by
  refine readU64_of_number ?_
  have inside := stores.inside
  by_cases none_ : numBits.toNat = 0
  · rw [none_] at stores ⊢
    rw [readU64, if_pos rfl, (stores_zero_iff.mp stores).1]
  · rw [readU64_of_le (bitLen_eq _ short) (Nat.pos_of_ne_zero none_) narrow (by omega) inside,
      stores.value_eq (spells_leNat _)]

theorem bitLen_lt {len : Nat} (counted : BitBuf.bitLen build bytes = .ok len) : len < wordLimit := by
  cases build with
  | checked =>
    simp only [BitBuf.bitLen, Arith.mul] at counted
    split at counted
    · next fits =>
      cases counted
      exact fits
    · cases counted
  | wrapping =>
    cases counted
    exact Nat.mod_lt _ (by decide)

/-- A read returns exactly where its bits are in the buffer, as the build counts them. -/
theorem readU64_returns_iff :
    (∃ value, BitBuf.readU64 build bytes bitOffset numBits = .ok value) ↔
      numBits = 0 ∨ numBits.toNat ≤ 64 ∧ ∃ len, BitBuf.bitLen build bytes = .ok len ∧
        bitOffset.toNat + numBits.toNat ≤ len := by
  by_cases none_ : numBits = 0
  · rw [BitBuf.readU64, if_pos none_]
    exact ⟨fun _ => Or.inl none_, fun _ => ⟨0, rfl⟩⟩
  rw [or_iff_right none_]
  constructor
  · rintro ⟨value, returned⟩
    rw [BitBuf.readU64, if_neg none_] at returned
    simp only [bind_eq_ok, okOr_eq_ok, refuseIf_eq_ok] at returned
    obtain ⟨_, narrow, endBit, added, len, counted, _, inside, _⟩ := returned
    rw [checkedAdd_eq_add added] at inside
    exact ⟨Nat.le_of_not_lt narrow, len, counted, Nat.le_of_not_lt inside⟩
  · rintro ⟨narrow, len, counted, inside⟩
    have some : 0 < numBits.toNat :=
      Nat.pos_of_ne_zero fun zero => none_ (UInt32.toNat_inj.mp zero)
    exact ⟨_, readU64_of_number
      (readU64_of_le counted some narrow (Nat.lt_of_le_of_lt inside (bitLen_lt counted)) inside)⟩

/-- No byte outside the buffer is looked at: only the count of bits can overflow. -/
theorem readU64_panics (panics : BitBuf.readU64 build bytes bitOffset numBits = panicked) :
    BitBuf.bitLen build bytes = panicked := by
  have same := readU64_toNat build bytes bitOffset numBits
  rw [panics] at same
  have number : readU64 (.machine build) bytes bitOffset.toNat numBits.toNat = panicked := same.symm
  by_cases none_ : numBits.toNat = 0
  · rw [readU64, if_pos none_] at number
    cases number
  · simp only [readU64, if_neg none_, bind_eq_panicked, refuseIf_ne_panicked, okOr_ne_panicked,
      false_or, refuseIf_eq_ok, okOr_eq_ok] at number
    obtain ⟨_, _, endBit, added, counted | ⟨len, counted, _, inside, outside⟩⟩ := number
    · exact counted
    · have most := mul_le counted
      rw [checkedAdd_eq_add added] at inside
      rw [slice_of_le (by omega) (by omega)] at outside
      simp at outside

end Numbers

section Signs

/-- The top bit of a number says which half of its range it is in. -/
theorem testBit_top {number place : Nat} (low : number < 2 ^ (place + 1)) :
    number.testBit place = true ↔ 2 ^ place ≤ number := by
  rw [Nat.pow_succ] at low
  constructor
  · intro set_
    by_contra less
    rw [Nat.testBit_lt_two_pow (Nat.lt_of_not_le less)] at set_
    cases set_
  · intro le
    have one : number / 2 ^ place = 1 := Nat.div_eq_of_lt_le (by omega) (by omega)
    rw [Nat.testBit_eq_decide_div_mod_eq, one]
    rfl

/-- Repeating the top bit up to bit 63 keeps the two's complement value. -/
theorem toInt_extend {numBits : UInt32} {raw : UInt64} (some : 0 < numBits.toNat)
    (narrow : numBits.toNat ≤ 64) (low : raw.toNat < 2 ^ numBits.toNat) :
    (BitBuf.extend numBits raw).toInt = (BitVec.ofNat numBits.toNat raw.toNat).toInt := by
  have value (word : UInt64) : word.toInt64.toInt =
      if 2 * word.toNat < 2 ^ 64 then (word.toNat : Int) else word.toNat - 2 ^ 64 :=
    BitVec.toInt_eq_toNat_cond word.toBitVec
  rw [BitVec.toInt_eq_toNat_cond, BitVec.toNat_ofNat, Nat.mod_eq_of_lt low, BitBuf.extend]
  by_cases full : numBits = 64
  · rw [if_pos full, value, full]
    rfl
  · rw [if_neg full]
    have less : numBits.toNat < 64 :=
      Nat.lt_of_le_of_ne narrow fun same => full (UInt32.toNat_inj.mp same)
    obtain ⟨place, width⟩ : ∃ place, numBits.toNat = place + 1 := ⟨numBits.toNat - 1, by omega⟩
    have one : (1 : UInt32).toNat ≤ numBits.toNat := some
    have before : (numBits - 1).toUInt64.toNat = place := by
      rw [UInt32.toNat_toUInt64, UInt32.toNat_sub_of_le _ _ (UInt32.le_iff_toNat_le.mpr one), width]
      rfl
    have small : 2 ^ place ≤ 2 ^ 62 := Nat.pow_le_pow_right (by decide) (by omega)
    have sign : ((1 : UInt64) <<< (numBits - 1).toUInt64).toNat = 2 ^ place := by
      rw [UInt64.toNat_shiftLeft, before, Nat.mod_eq_of_lt (by omega : place < 64), Nat.shiftLeft_eq]
      change 1 * 2 ^ place % 2 ^ 64 = _
      rw [Nat.one_mul, Nat.mod_eq_of_lt (by omega)]
    have top : raw &&& (1 <<< (numBits - 1).toUInt64) ≠ 0 ↔ 2 ^ place ≤ raw.toNat := by
      rw [← testBit_top (width ▸ low), Ne, ← UInt64.toNat_inj, UInt64.toNat_and, sign,
        Nat.and_two_pow]
      cases raw.toNat.testBit place <;> simp
    have whole : 2 ^ numBits.toNat * (2 ^ (64 - numBits.toNat) - 1) = 2 ^ 64 - 2 ^ numBits.toNat := by
      rw [Nat.mul_sub_one, ← Nat.pow_add, Nat.add_sub_cancel' narrow]
    have ones : ((~~~0 : UInt64) <<< numBits.toUInt64).toNat =
        2 ^ numBits.toNat * (2 ^ (64 - numBits.toNat) - 1) := by
      have wrapped : (2 ^ 64 - 1) * 2 ^ numBits.toNat =
          2 ^ 64 * (2 ^ numBits.toNat - 1) + (2 ^ 64 - 2 ^ numBits.toNat) := by
        have least := Nat.one_le_two_pow (n := numBits.toNat)
        have most : 2 ^ numBits.toNat ≤ 2 ^ 64 := Nat.pow_le_pow_right (by decide) narrow
        omega
      rw [UInt64.toNat_shiftLeft, UInt32.toNat_toUInt64, Nat.mod_eq_of_lt less, Nat.shiftLeft_eq]
      change (2 ^ 64 - 1) * 2 ^ numBits.toNat % 2 ^ 64 = _
      rw [wrapped, Nat.mul_add_mod, whole,
        Nat.mod_eq_of_lt (Nat.sub_lt (by decide) (Nat.two_pow_pos _))]
    dsimp only
    by_cases negative : 2 ^ place ≤ raw.toNat
    · rw [if_pos (top.mpr negative), value, UInt64.toNat_or, ones, Nat.or_comm,
        ← Nat.two_pow_add_eq_or_of_lt low, whole, width, Nat.pow_succ, if_neg (by omega),
        if_neg (by omega)]
      omega
    · rw [if_neg (fun set_ => negative (top.mp set_)), value, width, Nat.pow_succ, if_pos (by omega),
        if_pos (by omega)]

theorem readI64_of_readU64 {build : Build} {bytes : Bytes} {bitOffset : UInt64} {numBits : UInt32}
    {raw : UInt64} (read : BitBuf.readU64 build bytes bitOffset numBits = .ok raw) :
    ∃ value, BitBuf.readI64 build bytes bitOffset numBits = .ok value ∧
      value.toInt = (BitVec.ofNat numBits.toNat raw.toNat).toInt := by
  rcases stores_of_readU64 read with ⟨rfl, rfl⟩ | ⟨narrow, stores⟩
  · exact ⟨0, rfl, by decide⟩
  · by_cases none_ : numBits = 0
    · subst none_
      cases read
      exact ⟨0, rfl, by decide⟩
    · have some : 0 < numBits.toNat :=
        Nat.pos_of_ne_zero fun zero => none_ (UInt32.toNat_inj.mp zero)
      refine ⟨_, ?_, toInt_extend some narrow stores.low⟩
      rw [BitBuf.readI64, if_neg none_,
        refuseIf_of_not (show ¬ numBits > 64 from Nat.not_lt.mpr narrow), ok_bind, read]
      rfl

theorem readU64_of_readI64 {build : Build} {bytes : Bytes} {bitOffset : UInt64} {numBits : UInt32}
    {value : Int64} (read : BitBuf.readI64 build bytes bitOffset numBits = .ok value) :
    ∃ raw, BitBuf.readU64 build bytes bitOffset numBits = .ok raw := by
  by_cases none_ : numBits = 0
  · rw [BitBuf.readU64, if_pos none_]
    exact ⟨0, rfl⟩
  · rw [BitBuf.readI64, if_neg none_] at read
    obtain ⟨_, _, later⟩ := bind_eq_ok.mp read
    obtain ⟨raw, found, _⟩ := bind_eq_ok.mp later
    exact ⟨raw, found⟩

end Signs

section Packing

/-- Fields written one after the other, the lowest bit of each first. -/
def writeBits (fields : List (Nat × Nat)) : Bytes :=
  leBytes ((widths fields + 7) / 8) (packed fields)

theorem stores_writeBits {before after : List (Nat × Nat)} {width value : Nat}
    (fit : ∀ field ∈ before ++ (width, value) :: after, field.2 < 2 ^ field.1) :
    Stores (writeBits (before ++ (width, value) :: after)) (widths before) width value := by
  have total : widths (before ++ (width, value) :: after) =
      widths before + (width + widths after) := by
    simp [widths]
  have room : packed (before ++ (width, value) :: after) <
      256 ^ ((widths (before ++ (width, value) :: after) + 7) / 8) := by
    refine Nat.lt_of_lt_of_le (packed_lt fit) ?_
    rw [show (256 : Nat) = 2 ^ 8 from rfl, ← Nat.pow_mul]
    exact Nat.pow_le_pow_right (by decide) (by omega)
  have spelled := spells_leNat (writeBits (before ++ (width, value) :: after))
  rw [writeBits, leNat_leBytes room, ← writeBits] at spelled
  have stored := @stores_of_spells _ _ (widths before) width spelled
    (by rw [writeBits, leBytes_length]; omega)
  rwa [packed_field (fun field member => fit field (by simp [member])) (fit (width, value) (by simp))]
    at stored

end Packing

/-- What each reader returns, when, and that fields written in a row are read back. -/
theorem bit_reader :
    (∀ (build : Build) (bytes : Bytes) (offset : UInt64) (n : UInt32),
      ((∃ v, BitBuf.readU64 build bytes offset n = .ok v) ↔
        n = 0 ∨ n.toNat ≤ 64 ∧ ∃ len, BitBuf.bitLen build bytes = .ok len ∧
          offset.toNat + n.toNat ≤ len) ∧
      (8 * bytes.length < 2 ^ 64 → BitBuf.bitLen build bytes = .ok (8 * bytes.length)) ∧
      (BitBuf.readU64 build bytes offset n = panicked → BitBuf.bitLen build bytes = panicked) ∧
      (∀ v, BitBuf.readU64 build bytes offset n = .ok v →
        (n = 0 ∨ offset.toNat + n.toNat ≤ 8 * bytes.length) ∧
        (∀ k < n.toNat, bit bytes (offset.toNat + k) = some (v.toNat.testBit k)) ∧
        ∀ k, n.toNat ≤ k → v.toNat.testBit k = false) ∧
      ∀ x, BitBuf.readI64 build bytes offset n = .ok x ↔
        ∃ v, BitBuf.readU64 build bytes offset n = .ok v ∧
          x.toInt = (BitVec.ofNat n.toNat v.toNat).toInt) ∧
    ∀ (build : Build) (before after : List (Nat × Nat)) (width value : Nat),
      (∀ field ∈ before ++ (width, value) :: after, field.2 < 2 ^ field.1) → width ≤ 64 →
      8 * (writeBits (before ++ (width, value) :: after)).length < 2 ^ 64 →
      Stores (writeBits (before ++ (width, value) :: after)) (widths before) width value ∧
        BitBuf.readU64 build (writeBits (before ++ (width, value) :: after))
          (UInt64.ofNat (widths before)) (UInt32.ofNat width) = .ok (UInt64.ofNat value) := by
  refine ⟨fun build bytes offset n => ⟨readU64_returns_iff, ?_, readU64_panics, ?_, ?_⟩, ?_⟩
  · intro short
    exact bitLen_eq (.machine build) short
  · intro v returned
    rcases stores_of_readU64 returned with ⟨rfl, rfl⟩ | ⟨_, stores⟩
    · exact ⟨Or.inl rfl, fun k below => absurd below (Nat.not_lt_zero k),
        fun k _ => Nat.zero_testBit k⟩
    · refine ⟨Or.inr stores.inside, stores.bits, fun k high => Nat.testBit_lt_two_pow ?_⟩
      exact Nat.lt_of_lt_of_le stores.low (Nat.pow_le_pow_right (by decide) high)
  · intro x
    constructor
    · intro read
      obtain ⟨raw, found⟩ := readU64_of_readI64 read
      obtain ⟨value, same, number⟩ := readI64_of_readU64 found
      rw [read] at same
      cases same
      exact ⟨raw, found, number⟩
    · rintro ⟨raw, found, number⟩
      obtain ⟨value, read, same⟩ := readI64_of_readU64 found
      rw [read, Int64.toInt_inj.mp (same.trans number.symm)]
  · intro build before after width value fit narrow short
    have stores := stores_writeBits fit
    have inside := stores.inside
    have offset : (UInt64.ofNat (widths before)).toNat = widths before := by
      rw [UInt64.toNat_ofNat', Nat.mod_eq_of_lt (by omega)]
    have size : (UInt32.ofNat width).toNat = width := by
      rw [UInt32.toNat_ofNat', Nat.mod_eq_of_lt (by omega)]
    refine ⟨stores, readU64_of_stores short (by rwa [size]) ?_⟩
    rwa [offset, size]

/-- A field of seven bits between others, over the end of the first byte. -/
theorem bit_reader_three :
    BitBuf.readU64 .checked (writeBits [(5, 3), (7, 100), (9, 300)]) 5 7 = .ok 100 :=
  (bit_reader.2 .checked [(5, 3)] [(9, 300)] 7 100 (by decide) (by decide) (by decide)).2

end Rdwarfs.Guarantees.BitReader
