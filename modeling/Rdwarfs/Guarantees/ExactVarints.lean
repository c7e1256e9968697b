import Rdwarfs.Guarantees.CompactDecoding
import Rdwarfs.Source.Compression.Arms

/-!
# Words of seven-bit digits

The metadata reader and the brotli frame each have a loop for a word of up to ten digits, seven
bits a byte. Both take a digit into the word with a shift that is refused only where it would
move by 64 places or more, and the tenth digit moves by 63: of its seven bits one is kept. The
loops agree everywhere, and are exact except where that digit is more than one.
-/
namespace Rdwarfs.Guarantees.ExactVarints

open Lib.Machine Lib.Compact Source Source.Metadata ThriftReader Source.Codecs CompactDecoding

section Loops

/-- What both loops make of a digit. -/
abbrev withDigit (result shift : UInt64) (byte : UInt8) : UInt64 :=
  result ||| ((byte &&& 0x7F).toUInt64 <<< shift)

/-- A digit is added above what was read, and what is past the word is gone. -/
theorem withDigit_eq {result shift : UInt64} {byte : UInt8} {place : Nat}
    (read : result.toNat < 2 ^ place) (at_ : shift.toNat = place) (inWord : place < 64) :
    withDigit result shift byte =
      UInt64.ofNat (result.toNat + byte.toNat % 128 * 2 ^ place) := by
  have joined : result.toNat + byte.toNat % 128 * 2 ^ place =
      result.toNat ||| byte.toNat % 128 * 2 ^ place := by
    rw [Nat.or_comm, Nat.mul_comm, ← Nat.two_pow_add_eq_or_of_lt read, Nat.add_comm]
  rw [← UInt64.toNat_inj, UInt64.toNat_or, UInt64.toNat_shiftLeft, UInt8.toNat_toUInt64, low_bits,
    at_, Nat.mod_eq_of_lt inWord, Nat.shiftLeft_eq, UInt64.toNat_ofNat', joined,
    Nat.or_mod_two_pow, Nat.mod_eq_of_lt result.toNat_lt]

theorem readLeb128From_cons {i : Nat} (inWord : i < 10) (result : UInt64) (byte : UInt8)
    (rest : Bytes) : readLeb128From i result (byte :: rest) =
      if byte &&& 0x80 = 0 then .ok ((withDigit result (UInt64.ofNat (7 * i)) byte).toNat, i + 1)
      else readLeb128From (i + 1) (withDigit result (UInt64.ofNat (7 * i)) byte) rest := by
  rw [readLeb128From, if_pos (by omega)]

theorem readVarintFrom_succ {reader : ThriftReader} {byte : UInt8}
    (here : reader.bytes[reader.pos]? = some byte) (rounds : Nat) (result shift : UInt64) :
    readVarintFrom (rounds + 1) result shift reader =
      if byte &&& 0x80 = 0 then
        .ok (withDigit result shift byte, { reader with pos := reader.pos + 1 })
      else readVarintFrom rounds (withDigit result shift byte) (shift + 7)
        { reader with pos := reader.pos + 1 } := by
  have read : readByte reader = .ok (byte, { reader with pos := reader.pos + 1 }) := by
    simp only [readByte, here]
  rw [readVarintFrom]
  change (readByte reader >>= _) = _
  rw [read, ok_bind]
  dsimp only
  split <;> rfl

/-- Where digits end within ten bytes, the loop returns the last 64 bits of their number. -/
theorem readLeb128From_of_digits {n : Nat} {bytes : Bytes} (digits : Digits n bytes) {i : Nat}
    {result : UInt64} (read : result.toNat < 2 ^ (7 * i)) (short : i + bytes.length ≤ 10)
    (back : Bytes) :
    readLeb128From i result (bytes ++ back) =
      .ok ((UInt64.ofNat (result.toNat + n * 2 ^ (7 * i))).toNat, i + bytes.length) := by
  have place : (UInt64.ofNat (7 * i)).toNat = 7 * i := by
    rw [UInt64.toNat_ofNat']
    omega
  induction digits generalizing i result with
  | last byte ends =>
    rw [List.length_singleton] at short
    rw [List.singleton_append, readLeb128From_cons (by omega), if_pos ((high_bit byte).mpr ends),
      withDigit_eq read place (by omega), Nat.mod_eq_of_lt ends, List.length_singleton]
  | @more byte rest bytes goesOn digits ih =>
    have some := digits.length_pos
    rw [List.length_cons] at short
    have low : byte.toNat % 128 = byte.toNat - 128 := by
      have bound := byte.toNat_lt
      omega
    have raised : 2 ^ (7 * (i + 1)) = 128 * 2 ^ (7 * i) := by
      rw [Nat.mul_add, Nat.pow_add, Nat.mul_comm]
    have digit : (byte.toNat - 128) * 2 ^ (7 * i) + 2 ^ (7 * i) ≤ 2 ^ (7 * (i + 1)) := by
      have below : byte.toNat - 128 + 1 ≤ 128 := by omega
      rw [raised, ← Nat.succ_mul]
      exact Nat.mul_le_mul_right _ below
    have inWord : 2 ^ (7 * (i + 1)) ≤ 2 ^ 63 := Nat.pow_le_pow_right (by decide) (by omega)
    have kept : (UInt64.ofNat (result.toNat + (byte.toNat - 128) * 2 ^ (7 * i))).toNat =
        result.toNat + (byte.toNat - 128) * 2 ^ (7 * i) := by
      rw [UInt64.toNat_ofNat']
      exact Nat.mod_eq_of_lt (by omega)
    have spread : (byte.toNat - 128 + 128 * rest) * 2 ^ (7 * i) =
        (byte.toNat - 128) * 2 ^ (7 * i) + rest * 2 ^ (7 * (i + 1)) := by
      rw [raised, Nat.add_mul, Nat.mul_comm 128 rest, Nat.mul_assoc]
    have later := @ih (i + 1) (UInt64.ofNat (result.toNat + (byte.toNat - 128) * 2 ^ (7 * i)))
      (by omega) (by omega) (by rw [UInt64.toNat_ofNat']; omega)
    rw [List.cons_append, readLeb128From_cons (by omega),
      if_neg (fun ends => Nat.not_lt.mpr goesOn ((high_bit byte).mp ends)),
      withDigit_eq read place (by omega), low, later, kept, spread, List.length_cons,
      Nat.add_assoc, Nat.add_right_comm, Nat.add_assoc i]

/-- Bytes that all go on are refused. -/
theorem readLeb128From_of_continued {bytes : Bytes} (continued : ∀ byte ∈ bytes, 128 ≤ byte.toNat)
    (i : Nat) (result : UInt64) : ∃ reason, readLeb128From i result bytes = fail reason := by
  induction bytes generalizing i result with
  | nil => exact ⟨_, rfl⟩
  | cons byte rest ih =>
    obtain ⟨goesOn, continued⟩ := List.forall_mem_cons.mp continued
    rw [readLeb128From]
    split
    · simp only [if_neg (fun ends => Nat.not_lt.mpr goesOn ((high_bit byte).mp ends))]
      exact ih continued _ _
    · exact ⟨_, rfl⟩

/-- From `start` bytes in, both loops return the same word behind the same byte, or both fail. -/
def Alike (reader : ThriftReader) (start : Nat)
    (thrift : Except (Failure Error) (UInt64 × ThriftReader)) (brotli : Result (Nat × Nat)) : Prop :=
  match brotli with
  | .ok (value, count) => ∃ (word : UInt64) (more : Nat), value = word.toNat ∧
      count = start + more ∧ thrift = .ok (word, { reader with pos := reader.pos + more })
  | .error _ => ∃ reason, thrift = fail reason

theorem Alike.later {reader : ThriftReader} {start : Nat}
    {thrift : Except (Failure Error) (UInt64 × ThriftReader)} {brotli : Result (Nat × Nat)}
    (alike : Alike { reader with pos := reader.pos + 1 } (start + 1) thrift brotli) :
    Alike reader start thrift brotli := by
  match brotli, alike with
  | .ok (value, count), ⟨word, more, same, counted, ran⟩ =>
    refine ⟨word, more + 1, same, by omega, ?_⟩
    rw [ran, Nat.add_assoc, Nat.add_comm 1 more]
  | .error _, failed => exact failed

theorem alike_loops {rounds i : Nat} (ten : rounds + i = 10) (result : UInt64)
    (reader : ThriftReader) :
    Alike reader i (readVarintFrom rounds result (UInt64.ofNat (7 * i)) reader)
      (readLeb128From i result ((reader.bytes.drop reader.pos).take rounds)) := by
  induction rounds generalizing i result reader with
  | zero => exact ⟨_, rfl⟩
  | succ rounds ih =>
    cases left : reader.bytes.drop reader.pos with
    | nil =>
      have none_ : reader.bytes[reader.pos]? = none :=
        List.getElem?_eq_none (List.drop_eq_nil_iff.mp left)
      refine ⟨unexpectedEnd, ?_⟩
      rw [readVarintFrom]
      change (readByte reader >>= _) = _
      simp only [readByte, none_, error_bind]
    | cons byte rest =>
      have here : reader.bytes[reader.pos]? = some byte := by
        rw [← Nat.add_zero reader.pos, ← List.getElem?_drop, left]
        rfl
      have next : reader.bytes.drop (reader.pos + 1) = rest := by
        rw [← List.drop_drop, left]
        rfl
      have raised : UInt64.ofNat (7 * i) + 7 = UInt64.ofNat (7 * (i + 1)) := by
        rw [← UInt64.toNat_inj, UInt64.toNat_add, UInt64.toNat_ofNat', UInt64.toNat_ofNat']
        simp only [UInt64.reduceToNat]
        omega
      rw [readVarintFrom_succ here, List.take_succ_cons, readLeb128From_cons (by omega)]
      by_cases ends : byte &&& 0x80 = 0
      · rw [if_pos ends, if_pos ends]
        exact ⟨_, 1, rfl, rfl, rfl⟩
      · have later := @ih (i + 1) (by omega) (withDigit result (UInt64.ofNat (7 * i)) byte)
          { reader with pos := reader.pos + 1 }
        rw [if_neg ends, if_neg ends, raised]
        rw [next] at later
        exact later.later

end Loops

section Words

theorem readLeb128U64_of_digits {n : Nat} {front : Bytes} (digits : Digits n front)
    (short : front.length ≤ 10) (back : Bytes) :
    readLeb128U64 (front ++ back) = .ok ((UInt64.ofNat n).toNat, front.length) := by
  have read := @readLeb128From_of_digits n front digits 0 0 (by decide) (by omega)
    (back.take (10 - front.length))
  rw [readLeb128U64, leb128MaxBytes, List.take_append, List.take_of_length_le short, read]
  simp

theorem readLeb128U64_of_continued {bytes : Bytes}
    (continued : ∀ byte ∈ bytes.take 10, 128 ≤ byte.toNat) :
    ∃ reason, readLeb128U64 bytes = fail reason :=
  readLeb128From_of_continued continued 0 0

/-- The same of the metadata reader, which then stands behind the digits. -/
theorem readVarintU64_of_digits {n : Nat} {front back : Bytes} (digits : Digits n front)
    (short : front.length ≤ 10) {reader : ThriftReader}
    (here : reader.bytes.drop reader.pos = front ++ back) :
    readVarintU64 reader =
      .ok (UInt64.ofNat n, { reader with pos := reader.pos + front.length }) := by
  have alike := @alike_loops 10 0 rfl 0 reader
  have brotli := readLeb128U64_of_digits digits short back
  rw [readLeb128U64, leb128MaxBytes] at brotli
  rw [here, brotli] at alike
  obtain ⟨word, more, same, counted, ran⟩ := alike
  obtain rfl := UInt64.toNat_inj.mp same
  rw [counted, Nat.zero_add]
  exact ran

/-- The word at the reader's position, and how many bytes the reader moves over it. -/
def readWord (reader : ThriftReader) : Result (Nat × Nat) := do
  let (word, after) ← readVarintU64 reader
  return (word.toNat, after.pos - reader.pos)

/-- Two calls end alike: with the same word and count, or both with an error. -/
structure Agree (one other : Result (Nat × Nat)) : Prop where
  value : ∀ answer, one = .ok answer ↔ other = .ok answer
  failure : (∃ reason, one = fail reason) ↔ ∃ reason, other = fail reason

theorem readers_agree (reader : ThriftReader) :
    Agree (readWord reader) (readLeb128U64 (reader.bytes.drop reader.pos)) := by
  have alike := @alike_loops 10 0 rfl 0 reader
  have settled := readLeb128From_ne_panicked ((reader.bytes.drop reader.pos).take 10) 0 0
  rw [readWord, readVarintU64, readLeb128U64, leb128MaxBytes]
  cases brotli : readLeb128From 0 0 ((reader.bytes.drop reader.pos).take 10) with
  | ok answer =>
    obtain ⟨value, count⟩ := answer
    rw [brotli] at alike
    obtain ⟨word, more, rfl, counted, ran⟩ := alike
    have moved : reader.pos + more - reader.pos = count := by omega
    change readVarintFrom 10 0 0 reader = _ at ran
    rw [ran, ok_bind]
    simp only [moved, pure_eq_ok]
    exact ⟨fun _ => Iff.rfl, Iff.rfl⟩
  | error failure =>
    rw [brotli] at alike
    cases failure with
    | err reason =>
      obtain ⟨other, ran⟩ := alike
      change readVarintFrom 10 0 0 reader = _ at ran
      rw [ran, error_bind]
      exact ⟨fun answer => by simp, ⟨fun _ => ⟨reason, rfl⟩, fun _ => ⟨other, rfl⟩⟩⟩
    | panic => exact absurd brotli settled

/-- The tenth byte ends the word, with a digit of which only the lowest bit fits. -/
def Spills (bytes : Bytes) : Prop :=
  ∃ byte : UInt8, bytes[9]? = some byte ∧ (∀ other ∈ bytes.take 9, 128 ≤ other.toNat) ∧
    2 ≤ byte.toNat ∧ byte.toNat < 128

theorem spills_iff {bytes : Bytes} : Spills bytes ↔
    ∃ (n : Nat) (front back : Bytes), bytes = front ++ back ∧ Digits n front ∧
      front.length ≤ 10 ∧ 2 ^ 64 ≤ n := by
  constructor
  · rintro ⟨byte, tenth, continued, least, ends⟩
    rcases digits_or_continued 10 bytes with ⟨n, whole, back, rfl, digits, short⟩ | goesOn
    · obtain ⟨front, last, low, rfl, _, lastEnds, small, rfl⟩ := digits.split
      refine ⟨_, _, back, rfl, digits, short, ?_⟩
      have found : ((front ++ [last]) ++ back)[front.length]? = some last := by simp
      have nine : front.length = 9 := by
        by_contra other
        simp only [List.length_append, List.length_singleton] at short
        have member : last ∈ ((front ++ [last]) ++ back).take 9 :=
          List.mem_of_getElem? ((List.getElem?_take_of_lt (by omega)).trans found)
        exact absurd lastEnds (Nat.not_lt.mpr (continued last member))
      rw [nine, tenth] at found
      cases found
      rw [nine]
      omega
    · have member : byte ∈ bytes.take 10 :=
        List.mem_of_getElem? ((List.getElem?_take_of_lt (by decide)).trans tenth)
      exact absurd ends (Nat.not_lt.mpr (goesOn byte member))
  · rintro ⟨n, whole, back, rfl, digits, short, wide⟩
    obtain ⟨front, last, low, rfl, continued, ends, small, rfl⟩ := digits.split
    simp only [List.length_append, List.length_singleton] at short
    have nine : front.length = 9 := by
      by_contra other
      have top : 128 ^ front.length * (last.toNat + 1) ≤ 128 ^ front.length * 128 :=
        Nat.mul_le_mul_left _ ends
      have few : 128 ^ (front.length + 1) ≤ 128 ^ 9 := Nat.pow_le_pow_right (by decide) (by omega)
      rw [Nat.mul_succ] at top
      rw [Nat.pow_succ] at few
      omega
    rw [nine] at small wide
    refine ⟨last, by simp [nine], fun other member => ?_, by omega, ends⟩
    rw [List.append_assoc, List.take_append_of_le_length (Nat.le_of_eq nine.symm)] at member
    exact continued other (List.mem_of_mem_take member)

/-- A call's answer is a number whose digits these bytes start with; it fails where there is no
such number, or none that ten bytes and 64 bits hold. -/
structure Exact (bytes : Bytes) (read : Result (Nat × Nat)) : Prop where
  value : ∀ n count, read = .ok (n, count) → count ≤ bytes.length ∧ Digits n (bytes.take count)
  wide : ∀ n count, Digits n (bytes.take count) → 2 ^ 64 ≤ n → ∃ reason, read = fail reason
  truncated : (∀ byte ∈ bytes, 128 ≤ byte.toNat) → ∃ reason, read = fail reason
  long : ∀ n count, 10 < count → count ≤ bytes.length → Digits n (bytes.take count) →
    ∃ reason, read = fail reason

theorem Exact.of_agree {bytes : Bytes} {one other : Result (Nat × Nat)} (agree : Agree one other)
    (exact_ : Exact bytes other) : Exact bytes one where
  value n count answered := exact_.value n count ((agree.value _).mp answered)
  wide n count digits above := agree.failure.mpr (exact_.wide n count digits above)
  truncated continued := agree.failure.mpr (exact_.truncated continued)
  long n count many inside digits := agree.failure.mpr (exact_.long n count many inside digits)

theorem exact_readLeb128U64_iff (bytes : Bytes) :
    Exact bytes (readLeb128U64 bytes) ↔ ¬ Spills bytes := by
  constructor
  · intro exact_ spills
    obtain ⟨n, front, back, rfl, digits, short, wide⟩ := spills_iff.mp spills
    obtain ⟨reason, failed⟩ := exact_.wide n front.length (by rwa [List.take_left]) wide
    rw [readLeb128U64_of_digits digits short] at failed
    cases failed
  · intro kept
    rcases digits_or_continued 10 bytes with ⟨n, front, back, rfl, digits, short⟩ | continued
    · have read := readLeb128U64_of_digits digits short back
      have word : n < 2 ^ 64 := Nat.lt_of_not_le fun wide =>
        kept (spills_iff.mpr ⟨n, front, back, rfl, digits, short, wide⟩)
      have only : ∀ m count, Digits m ((front ++ back).take count) →
          front = (front ++ back).take count ∧ n = m := by
        intro m count other
        exact digits.unique other (List.take_append_drop count (front ++ back)).symm
      refine ⟨?_, ?_, ?_, ?_⟩
      · intro m count answered
        rw [read, UInt64.toNat_ofNat', Nat.mod_eq_of_lt word] at answered
        cases answered
        rw [List.take_left]
        exact ⟨by simp, digits⟩
      · intro m count other wide
        obtain ⟨_, rfl⟩ := only m count other
        exact absurd word (Nat.not_lt.mpr wide)
      · intro continued
        obtain ⟨before, byte, low, rfl, _, ends, _, _⟩ := digits.split
        exact absurd (continued byte (by simp)) (Nat.not_le.mpr ends)
      · intro m count many inside other
        obtain ⟨same, _⟩ := only m count other
        have length := congrArg List.length same
        rw [List.length_take_of_le inside] at length
        omega
    · have failed := readLeb128U64_of_continued continued
      refine ⟨?_, fun _ _ _ _ => failed, fun _ => failed, fun _ _ _ _ _ => failed⟩
      intro m count answered
      obtain ⟨reason, failed⟩ := failed
      rw [failed] at answered
      cases answered

end Words

/-- Words are read exactly, and by both readers alike, unless the tenth byte spills over. -/
theorem words_exact_iff (reader : ThriftReader) :
    (Exact (reader.bytes.drop reader.pos) (readWord reader) ∧
      Exact (reader.bytes.drop reader.pos) (readLeb128U64 (reader.bytes.drop reader.pos)) ∧
      Agree (readWord reader) (readLeb128U64 (reader.bytes.drop reader.pos))) ↔
    ¬ Spills (reader.bytes.drop reader.pos) := by
  rw [← exact_readLeb128U64_iff]
  have agree := readers_agree reader
  exact ⟨fun ⟨_, exact_, _⟩ => exact_, fun exact_ => ⟨exact_.of_agree agree, exact_, agree⟩⟩

/-- Nine bytes that go on, and a digit of two: `2 ^ 64`. -/
def spilled : Bytes := [0x80, 0x80, 0x80, 0x80, 0x80, 0x80, 0x80, 0x80, 0x80, 2]

/-- Both readers return zero, and count ten bytes. -/
theorem tenth_byte_spills :
    Digits (2 ^ 64) spilled ∧ readLeb128U64 spilled = .ok (0, 10) ∧
      readWord (.new spilled) = .ok (0, 10) ∧ ¬ Exact spilled (readLeb128U64 spilled) ∧
      ¬ Exact spilled (readWord (.new spilled)) := by
  have next {n : Nat} {bytes : Bytes} (digits : Digits n bytes) :
      Digits (128 * n) (0x80 :: bytes) := by
    have longer := Digits.more 0x80 (by decide) digits
    rwa [show (0x80 : UInt8).toNat - 128 = 0 from rfl, Nat.zero_add] at longer
  have digits : Digits (2 ^ 64) spilled :=
    next (next (next (next (next (next (next (next (next (.last 2 (by decide))))))))))
  have zero : readLeb128U64 spilled = .ok (0, 10) := by decide
  have word : readWord (.new spilled) = .ok (0, 10) := by decide
  have wrong : ¬ Exact spilled (.ok (0, 10)) := by
    intro exact_
    obtain ⟨reason, failed⟩ := exact_.wide (2 ^ 64) 10 digits (Nat.le_refl _)
    cases failed
  exact ⟨digits, zero, word, zero ▸ wrong, word ▸ wrong⟩

end Rdwarfs.Guarantees.ExactVarints
