import Rdwarfs.Lib.Compact
import Rdwarfs.Source.Metadata.Thrift

/-!
# The reader follows the compact grammar

Each reader, run where an encoding starts, returns what the encoding is of and stops where
it ends, whatever stands before and after it and whatever structs enclose it. Skipping is the
case of a value nobody asked for: it moves over any encoding, and leaves the field id and the
frames as they were.
-/
namespace Rdwarfs.Guarantees.CompactDecoding

open Lib.Machine Lib.Compact Source Source.Metadata ThriftReader

section Reads

variable {α β : Type}

/-- At `bytes`, with `last` the field before, the reader returns `value`, moves over `bytes`
and leaves `after` as the field before. -/
def Reads (run : Reader α) (last : Int16) (bytes : Bytes) (value : α) (after : Int16) : Prop :=
  ∀ (front back : Bytes) (stack : List Int16), (front ++ (bytes ++ back)).length < sliceLimit →
    run ⟨front ++ (bytes ++ back), front.length, last, stack⟩ =
      .ok (value, ⟨front ++ (bytes ++ back), front.length + bytes.length, after, stack⟩)

/-- A reader that never looks at the field ids. -/
abbrev Takes (run : Reader α) (bytes : Bytes) (value : α) : Prop :=
  ∀ last, Reads run last bytes value last

theorem reads_pure (value : α) (last : Int16) : Reads (pure value) last [] value last := by
  intro front back stack fits
  rfl

theorem Reads.bind {first : Reader α} {next : α → Reader β} {last mid after : Int16}
    {bytes rest : Bytes} {x : α} {y : β} (one : Reads first last bytes x mid)
    (two : Reads (next x) mid rest y after) :
    Reads (first >>= next) last (bytes ++ rest) y after := by
  intro front back stack fits
  have moved := one front (rest ++ back) stack
  have ended := two (front ++ bytes) back stack
  simp only [List.append_assoc, List.length_append, Nat.add_assoc] at moved ended fits ⊢
  change (first _ >>= fun (a, s) => next a s) = _
  rw [moved fits]
  exact ended fits

/-- A last step that reads nothing. -/
theorem Reads.map {first : Reader α} {next : α → Reader β} {last after : Int16} {bytes : Bytes}
    {x : α} {y : β} (one : Reads first last bytes x after) (two : next x = pure y) :
    Reads (first >>= next) last bytes y after := by
  have both := one.bind (two ▸ reads_pure y after : Reads (next x) after [] y after)
  rwa [List.append_nil] at both

/-- A step that reads nothing, before the rest. -/
theorem Reads.after {first : Reader α} {next : α → Reader β} {last after : Int16}
    {bytes : Bytes} {x : α} {y : β} (one : Reads first last [] x last)
    (two : Reads (next x) last bytes y after) : Reads (first >>= next) last bytes y after :=
  one.bind two

end Reads

section Integers

theorem takes_readByte (byte : UInt8) : Takes readByte [byte] byte := by
  intro last front back stack fits
  have here : (front ++ ([byte] ++ back))[front.length]? = some byte := by simp
  simp only [readByte, here, List.length_singleton]

theorem takes_readSlice (bytes : Bytes) : Takes (readSlice bytes.length) bytes bytes := by
  intro last front back stack fits
  simp only [List.length_append] at fits
  have word : front.length + bytes.length < wordLimit := by
    rw [wordLimit_eq]
    rw [sliceLimit_eq] at fits
    omega
  have taken : (slice (front ++ (bytes ++ back)) front.length (front.length + bytes.length) :
      Result Bytes) = .ok bytes := by
    rw [slice_of_le (by omega) (by simp only [List.length_append]; omega)]
    simp
  simp only [readSlice, checkedAddWord_of_lt word, okOr_some, ok_bind]
  rw [refuseIf_of_not (by simp only [List.length_append]; omega), ok_bind, taken]
  rfl

theorem low_bits (byte : UInt8) : (byte &&& 0x7F).toNat = byte.toNat % 128 := by
  rw [UInt8.toNat_and]
  exact Nat.and_two_pow_sub_one_eq_mod _ 7

theorem high_bit (byte : UInt8) : byte &&& 0x80 = 0 ↔ byte.toNat < 128 := by
  have words : ∀ n : Fin 256, n.val &&& 128 = 0 ↔ n.val < 128 := by decide +kernel
  rw [← UInt8.toNat_inj, UInt8.toNat_and]
  exact words ⟨byte.toNat, byte.toNat_lt⟩

/-- One more digit, above what was read. -/
theorem digit_added {result shift : UInt64} {byte : UInt8} {place : Nat}
    (read : result.toNat < 2 ^ place) (at_ : shift.toNat = place) (inWord : place < 64)
    (fits : byte.toNat % 128 * 2 ^ place < 2 ^ 64) :
    (result ||| ((byte &&& 0x7F).toUInt64 <<< shift)).toNat =
      result.toNat + byte.toNat % 128 * 2 ^ place := by
  rw [UInt64.toNat_or, UInt64.toNat_shiftLeft, UInt8.toNat_toUInt64, low_bits, at_,
    Nat.mod_eq_of_lt inWord, Nat.shiftLeft_eq, Nat.mod_eq_of_lt fits, Nat.or_comm, Nat.mul_comm,
    ← Nat.two_pow_add_eq_or_of_lt read, Nat.add_comm]

/-- The varint loop, `place` bits up, adds the digits it reads to what it has. -/
theorem takes_readVarintFrom {n : Nat} {bytes : Bytes} (digits : Digits n bytes)
    {rounds place : Nat} {result shift : UInt64} (read : result.toNat < 2 ^ place)
    (at_ : shift.toNat = place) (enough : bytes.length ≤ rounds)
    (inWord : place + 7 * bytes.length ≤ 70) (fits : result.toNat + n * 2 ^ place < 2 ^ 64) :
    Takes (readVarintFrom rounds result shift) bytes
      (UInt64.ofNat (result.toNat + n * 2 ^ place)) := by
  intro last
  induction digits generalizing rounds place result shift with
  | last byte ends =>
    obtain ⟨rounds, rfl⟩ : ∃ fewer, rounds = fewer + 1 := ⟨rounds - 1, by simp at enough; omega⟩
    have low : byte.toNat % 128 = byte.toNat := Nat.mod_eq_of_lt ends
    have added := @digit_added result shift byte place read at_
      (by simp at inWord; omega) (by rw [low]; omega)
    rw [low] at added
    apply (takes_readByte byte last).map
    simp only [if_pos ((high_bit byte).mpr ends)]
    rw [← added, UInt64.ofNat_toNat]
  | @more byte rest bytes goesOn digits ih =>
    obtain ⟨rounds, rfl⟩ : ∃ fewer, rounds = fewer + 1 := ⟨rounds - 1, by simp at enough; omega⟩
    have some := digits.length_pos
    simp only [List.length_cons] at enough inWord
    have low : byte.toNat % 128 = byte.toNat - 128 := by
      have bound := byte.toNat_lt
      omega
    have raised : 2 ^ (place + 7) = 128 * 2 ^ place := by rw [Nat.pow_add, Nat.mul_comm]
    have spread : (byte.toNat - 128 + 128 * rest) * 2 ^ place =
        (byte.toNat - 128) * 2 ^ place + rest * 2 ^ (place + 7) := by
      rw [raised, Nat.add_mul, Nat.mul_comm 128 rest, Nat.mul_assoc]
    rw [spread] at fits ⊢
    have added := @digit_added result shift byte place read at_ (by omega) (by rw [low]; omega)
    rw [low] at added
    have digit : (byte.toNat - 128) * 2 ^ place + 2 ^ place ≤ 2 ^ (place + 7) := by
      have bound := byte.toNat_lt
      have below : byte.toNat - 128 + 1 ≤ 128 := by omega
      calc
        (byte.toNat - 128) * 2 ^ place + 2 ^ place = (byte.toNat - 128 + 1) * 2 ^ place := by
          rw [Nat.add_mul, Nat.one_mul]
        _ ≤ 128 * 2 ^ place := Nat.mul_le_mul_right _ below
        _ = 2 ^ (place + 7) := raised.symm
    have later := @ih rounds (place + 7) (result ||| ((byte &&& 0x7F).toUInt64 <<< shift))
      (shift + 7) (by rw [added]; omega) (by rw [UInt64.toNat_add, at_]; simp; omega) (by omega)
      (by omega) (by rw [added]; omega)
    rw [added, Nat.add_assoc] at later
    apply (takes_readByte byte last).bind
    rw [if_neg (fun ends => by have := (high_bit byte).mp ends; omega)]
    exact later

theorem takes_readVarintU64 {n : Nat} {bytes : Bytes} (varint : Varint n bytes) :
    Takes readVarintU64 bytes (UInt64.ofNat n) := by
  have short := varint.short
  have word := varint.word
  have read := @takes_readVarintFrom n bytes varint.digits 10 0 0 0 (by decide) (by decide) short
    (by omega) (by simpa using word)
  simpa [readVarintU64] using read

theorem unzigzag_zigzag (n : Int) (word : zigzag n < 2 ^ 64) :
    unzigzag (UInt64.ofNat (zigzag n)) = n := by
  have same : (UInt64.ofNat (zigzag n)).toNat = zigzag n := by
    rw [UInt64.toNat_ofNat', Nat.mod_eq_of_lt word]
  rw [unzigzag, same]
  unfold zigzag
  split
  · rw [if_pos (by omega)]
    omega
  · rw [if_neg (by omega)]
    omega

theorem takes_readI64 {width : Nat} {n : Int} {bytes : Bytes} (integer : Integer width n bytes) :
    Takes readI64 bytes n := by
  intro last
  apply (takes_readVarintU64 integer.varint last).map
  rw [unzigzag_zigzag n integer.varint.word]

theorem takes_readI16 {n : Int} {bytes : Bytes} (integer : Integer 16 n bytes) :
    Takes readI16 bytes (Int16.ofInt n) := by
  intro last
  apply (takes_readI64 integer last).map
  rw [if_pos ⟨integer.least, integer.most⟩]

theorem takes_readI32 {n : Int} {bytes : Bytes} (integer : Integer 32 n bytes) :
    Takes readI32 bytes (Int32.ofInt n) := by
  intro last
  apply (takes_readI64 integer last).map
  rw [if_pos ⟨integer.least, integer.most⟩]

theorem takes_readBinary {data bytes : Bytes} (blob : Blob data bytes) :
    Takes readBinary bytes data := by
  intro last
  obtain ⟨size, varint, rfl⟩ := blob
  apply (takes_readVarintU64 varint last).bind
  rw [UInt64.toNat_ofNat', Nat.mod_eq_of_lt varint.word]
  exact takes_readSlice data last

theorem takes_readString {text : String} {bytes : Bytes} (blob : Blob (Lib.Utf8.encode text) bytes) :
    Takes readString bytes text := by
  intro last
  apply (takes_readBinary blob last).map
  simp only [Lib.Utf8.decode_encode]

end Integers

section Headers

/-- The reader's type for a kind of value. -/
def ttypeOf : Kind → TType
  | .boolTrue => .boolTrue
  | .boolFalse => .boolFalse
  | .i8 => .i8
  | .i16 => .i16
  | .i32 => .i32
  | .i64 => .i64
  | .double => .double
  | .binary => .binary
  | .list => .list
  | .set => .set
  | .map => .map
  | .struct => .struct

theorem nibble (byte : UInt8) : (byte &&& 0x0F).toNat = byte.toNat % 16 := by
  rw [UInt8.toNat_and]
  exact Nat.and_two_pow_sub_one_eq_mod _ 4

theorem upper (byte : UInt8) : (byte >>> 4).toNat = byte.toNat / 16 := by
  rw [UInt8.toNat_shiftRight]
  exact Nat.shiftRight_eq_div_pow _ 4

theorem fromCode_code {byte : UInt8} {kind : Kind} (low : byte.toNat % 16 = kind.code) :
    TType.fromCode byte = .ok (ttypeOf kind) := by
  rw [TType.fromCode, nibble, low]
  cases kind <;> rfl

theorem packed_toNat {high : Nat} (small : high < 16) (kind : Kind) :
    (kind.packed high).toNat = 16 * high + kind.code := by
  have bounds := kind.code_bounds
  rw [Kind.packed, UInt8.toNat_ofNat']
  omega

theorem takes_readTType {byte : UInt8} (kind : Kind) (low : byte.toNat % 16 = kind.code) :
    Takes (readTType byte) [] (ttypeOf kind) := by
  intro last front back stack fits
  simp only [readTType, fromCode_code low, ok_bind]
  rfl

theorem toNat_ofNat_count {count : Nat} (counted : count < 2 ^ 32) :
    (UInt64.ofNat count).toNat = count := by
  rw [UInt64.toNat_ofNat']
  omega

theorem takes_lengthWord (what : String) {count : Nat} (counted : count < 2 ^ 32) :
    Takes (lengthWord what (UInt64.ofNat count)) [] count := by
  intro last
  rw [lengthWord, toNat_ofNat_count counted, if_pos counted]
  exact reads_pure count last

theorem takes_readListHeader {element : Kind} {count : Nat} {bytes : Bytes}
    (header : ListHead element count bytes) :
    Takes readListHeader bytes (ttypeOf element, count) := by
  intro last
  have bounds := element.code_bounds
  cases header with
  | short few =>
    have byte := packed_toNat (show count < 16 by omega) element
    have small : ((element.packed count >>> 4) &&& 0x0F).toNat = count := by
      rw [nibble, upper, byte]
      omega
    have notLong : ¬ (element.packed count >>> 4) &&& 0x0F = 0x0F := by
      intro long
      rw [long] at small
      exact absurd small (Nat.ne_of_gt few)
    apply (takes_readByte (element.packed count) last).bind
    apply (takes_readTType element (by rw [byte]; omega) last).after
    simp only [if_neg notLong, small]
    exact reads_pure _ last
  | @long size counted varint =>
    have byte := packed_toNat (show 15 < 16 by omega) element
    have small : (element.packed 15 >>> 4) &&& 0x0F = 0x0F := by
      rw [← UInt8.toNat_inj, nibble, upper, byte]
      have whole : (16 * 15 + element.code) / 16 = 15 := by omega
      rw [whole]
      rfl
    apply (takes_readByte (element.packed 15) last).bind
    apply (takes_readTType element (by rw [byte]; omega) last).after
    simp only [if_pos small]
    rw [← List.append_nil size]
    apply (takes_readVarintU64 varint last).bind
    apply (takes_lengthWord "list" counted last).after
    exact reads_pure _ last

/-- The types of an empty map are not read. -/
theorem takes_readMapHeader {key value : Kind} {count : Nat} {bytes : Bytes}
    (header : MapHead key value count bytes) :
    ∃ types : TType × TType, (0 < count → types = (ttypeOf key, ttypeOf value)) ∧
      Takes readMapHeader bytes (types.1, types.2, count) := by
  cases header with
  | empty varint =>
    refine ⟨(.stop, .stop), fun some => absurd some (Nat.lt_irrefl 0), fun last => ?_⟩
    rw [← List.append_nil bytes]
    apply (takes_readVarintU64 varint last).bind
    apply (takes_lengthWord "map" (by decide : 0 < 2 ^ 32) last).after
    rw [if_pos rfl]
    exact reads_pure _ last
  | typed some counted varint =>
    refine ⟨(ttypeOf key, ttypeOf value), fun _ => rfl, fun last => ?_⟩
    have keyBounds := key.code_bounds
    have valueBounds := value.code_bounds
    have byte := packed_toNat (show key.code < 16 by omega) value
    apply (takes_readVarintU64 varint last).bind
    apply (takes_lengthWord "map" counted last).after
    rw [if_neg (by omega)]
    apply (takes_readByte (value.packed key.code) last).bind
    apply (takes_readTType key (by rw [upper, byte]; omega) last).after
    apply (takes_readTType value (by rw [nibble, byte]; omega) last).after
    exact reads_pure _ last

theorem reads_setLastFieldId (last id : Int16) : Reads (setLastFieldId id) last [] () id := by
  intro front back stack fits
  rfl

theorem takes_addDelta {last id : Int16} {gap : Nat} {delta : UInt8} (small : delta.toNat = gap)
    (sum : id.toInt = last.toInt + gap) : Reads (addDelta delta) last [] id last := by
  intro front back stack fits
  have most := id.toInt_lt
  simp only [addDelta, small, ← sum]
  rw [if_pos most, Int16.ofInt_toInt]
  rfl

theorem reads_readFieldHeader {last id : Int16} {kind : Kind} {bytes : Bytes}
    (header : FieldHead last kind id bytes) :
    Reads readFieldHeader last bytes (some ⟨ttypeOf kind, id⟩) id := by
  have bounds := kind.code_bounds
  cases header with
  | gap gap least most sum =>
    have byte := packed_toNat (show gap < 16 by omega) kind
    have some : ¬ kind.packed gap = 0 := by
      rw [← UInt8.toNat_inj, byte]
      exact Nat.ne_of_gt (Nat.lt_of_lt_of_le bounds.1 (Nat.le_add_left _ _))
    have small : ((kind.packed gap >>> 4) &&& 0x0F).toNat = gap := by
      rw [nibble, upper, byte]
      omega
    have short : ¬ (kind.packed gap >>> 4) &&& 0x0F = 0 := by
      intro zero
      rw [zero] at small
      exact absurd small (Nat.ne_of_lt least)
    apply (takes_readByte (kind.packed gap) last).bind
    rw [if_neg some]
    apply (takes_readTType kind (by rw [nibble, byte]; omega) last).after
    simp only [if_neg short]
    apply (takes_addDelta small sum).after
    apply (reads_setLastFieldId last id).map
    rfl
  | @explicit size integer =>
    have byte := packed_toNat (show 0 < 16 by omega) kind
    have some : ¬ kind.packed 0 = 0 := by
      rw [← UInt8.toNat_inj, byte]
      exact Nat.ne_of_gt (Nat.lt_of_lt_of_le bounds.1 (Nat.le_add_left _ _))
    have long : (kind.packed 0 >>> 4) &&& 0x0F = 0 := by
      rw [← UInt8.toNat_inj, nibble, upper, byte]
      have whole : (16 * 0 + kind.code) / 16 = 0 := by omega
      rw [whole]
      rfl
    apply (takes_readByte (kind.packed 0) last).bind
    rw [if_neg some]
    apply (takes_readTType kind (by rw [nibble, byte]; omega) last).after
    simp only [if_pos long]
    rw [← List.append_nil size]
    apply (takes_readI16 integer last).bind
    rw [Int16.ofInt_toInt]
    apply (reads_setLastFieldId last id).map
    rfl

theorem reads_stop (last : Int16) : Reads readFieldHeader last [0] none last := by
  apply (takes_readByte 0 last).map
  rfl

end Headers

section Skipping

theorem reads_readStructBegin_end {α β : Type} {run : Reader α} {bytes : Bytes} {value : α}
    {inner : Int16} (finish : α → β) (fields : Reads run 0 bytes value inner) :
    Takes (readStructBegin >>= fun _ => run >>= fun x => readStructEnd >>= fun _ =>
      pure (finish x)) bytes (finish value) := by
  intro last front back stack fits
  have inside := fields front back (last :: stack) fits
  change (run _ >>= fun (x, s) => (readStructEnd >>= fun _ => pure (finish x)) s) = _
  rw [inside]
  rfl

/-- What skipping has to do on each part of an encoding. The depth is the bytes there are: a
container's header takes one, so what it nests has one less. -/
def Skips : Part → Bytes → Prop
  | .value kind, bytes => ∀ depth, bytes.length ≤ depth →
      Takes (skipValueIn depth (ttypeOf kind)) bytes ()
  | .element kind, bytes => ∀ depth, bytes.length ≤ depth →
      Takes (skipValueIn.skipElement depth (ttypeOf kind)) bytes ()
  | .elements kind count, bytes => ∀ depth, bytes.length ≤ depth →
      Takes (repeatFor (skipValueIn.skipElement depth (ttypeOf kind)) count) bytes ()
  | .pairs key value count, bytes => ∀ depth, bytes.length ≤ depth →
      Takes (repeatFor (do
        skipValueIn.skipElement depth (ttypeOf key)
        skipValueIn.skipElement depth (ttypeOf value)) count) bytes ()
  | .fields last, bytes => ∀ depth rounds, bytes.length ≤ depth + 1 → bytes.length ≤ rounds →
      ∃ after, Reads (whileFields (fun header _ => skipValueIn depth header.ttype) rounds ()) last
        bytes () after

/-- Only booleans are skipped otherwise inside a container. -/
theorem skipElement_other {kind : Kind} (other : ¬ kind.isBool) (depth : Nat) :
    skipValueIn.skipElement depth (ttypeOf kind) = skipValueIn depth (ttypeOf kind) := by
  cases kind with
  | boolTrue => exact absurd (Or.inl rfl) other
  | boolFalse => exact absurd (Or.inr rfl) other
  | _ => rw [ttypeOf, skipValueIn.skipElement] <;> exact TType.noConfusion

theorem skips_of_encoded {part : Part} {bytes : Bytes} (encoded : Encoded part bytes) :
    Skips part bytes := by
  induction encoded with
  | bool isBool =>
    intro depth enough last
    rcases isBool with rfl | rfl
    · rw [ttypeOf, skipValueIn]
      exact reads_pure () last
    · rw [ttypeOf, skipValueIn]
      exact reads_pure () last
  | i8 byte =>
    intro depth enough last
    rw [ttypeOf, skipValueIn]
    exact (takes_readByte byte last).map rfl
  | i16 integer | i32 integer | i64 integer =>
    intro depth enough last
    rw [ttypeOf, skipValueIn]
    exact (takes_readVarintU64 integer.varint last).map rfl
  | double eight =>
    intro depth enough last
    rw [ttypeOf, skipValueIn]
    exact (eight ▸ takes_readSlice _ last).map rfl
  | binary blob =>
    intro depth enough last
    rw [ttypeOf, skipValueIn]
    exact (takes_readBinary blob last).map rfl
  | @list kind element count head body container header elements ih =>
    intro depth enough last
    have some := header.length_pos
    simp only [List.length_append] at enough
    obtain ⟨depth, rfl⟩ : ∃ fewer, depth = fewer + 1 := ⟨depth - 1, by omega⟩
    have inside := ih depth (by omega) last
    rcases container with rfl | rfl
    · rw [ttypeOf, skipValueIn]
      exact (takes_readListHeader header last).bind inside
    · rw [ttypeOf, skipValueIn]
      exact (takes_readListHeader header last).bind inside
  | @map key value count head body header pairs ih =>
    intro depth enough last
    have some := header.length_pos
    simp only [List.length_append] at enough
    obtain ⟨depth, rfl⟩ : ∃ fewer, depth = fewer + 1 := ⟨depth - 1, by omega⟩
    obtain ⟨types, typed, read⟩ := takes_readMapHeader header
    rw [ttypeOf, skipValueIn]
    apply (read last).bind
    cases count with
    | zero =>
      cases pairs
      exact reads_pure () last
    | succ count =>
      rw [typed (Nat.succ_pos count)]
      exact ih depth (by omega) last
  | @struct body fields ih =>
    intro depth enough last
    have some := fields.fields_pos
    obtain ⟨depth, rfl⟩ : ∃ fewer, depth = fewer + 1 := ⟨depth - 1, by omega⟩
    obtain ⟨after, inside⟩ := ih depth (depth + 1) enough enough
    rw [ttypeOf, skipValueIn]
    exact reads_readStructBegin_end (fun _ => ()) inside last
  | @flag kind isBool byte =>
    intro depth enough last
    rcases isBool with rfl | rfl
    · rw [ttypeOf, skipValueIn.skipElement]
      exact (takes_readByte byte last).map rfl
    · rw [ttypeOf, skipValueIn.skipElement]
      exact (takes_readByte byte last).map rfl
  | @element kind bytes other value ih =>
    intro depth enough last
    rw [skipElement_other other]
    exact ih depth enough last
  | noElements =>
    intro depth enough last
    exact reads_pure () last
  | elements head tail ihHead ihTail =>
    intro depth enough last
    simp only [List.length_append] at enough
    apply (ihHead depth (by omega) last).bind
    exact ihTail depth (by omega) last
  | noPairs =>
    intro depth enough last
    exact reads_pure () last
  | pairs left right tail ihLeft ihRight ihTail =>
    intro depth enough last
    simp only [List.length_append] at enough
    rw [← List.append_assoc]
    apply ((ihLeft depth (by omega) last).bind (ihRight depth (by omega) last)).bind
    exact ihTail depth (by omega) last
  | @stop last =>
    intro depth rounds enough roundsEnough
    obtain ⟨rounds, rfl⟩ : ∃ fewer, rounds = fewer + 1 :=
      ⟨rounds - 1, by simp at roundsEnough; omega⟩
    exact ⟨last, (reads_stop last).map rfl⟩
  | @field last id kind head payload rest header value tail ihValue ihTail =>
    intro depth rounds enough roundsEnough
    have some := header.length_pos
    have ends := tail.fields_pos
    simp only [List.length_append] at enough roundsEnough
    obtain ⟨rounds, rfl⟩ : ∃ fewer, rounds = fewer + 1 := ⟨rounds - 1, by omega⟩
    obtain ⟨after, later⟩ := ihTail depth rounds (by omega) (by omega)
    refine ⟨after, (reads_readFieldHeader header).bind ?_⟩
    exact (ihValue depth (by omega) id).bind later

/-- Skipping moves over any value, and leaves the ids as they were. -/
theorem takes_skipValue {kind : Kind} {bytes : Bytes} (encoded : Encoded (.value kind) bytes) :
    Takes (skipValue (ttypeOf kind)) bytes () := by
  intro last front back stack fits
  apply skips_of_encoded encoded _ _ last front back stack fits
  simp only [remaining, List.length_append]
  omega

end Skipping

section Structs

variable {σ : Type}

/-- What the body of a field loop has to do for a record: read each field of its own that is
still as it started, leaving the others, and skip every other. -/
structure Follows (record : Record σ) (body : FieldHeader → σ → Reader σ) : Prop where
  fresh : ∀ id ∈ record.known, record.agree id record.start record.start
  own : ∀ value, ∀ id ∈ record.known, ∀ kind payload state, record.writes value id kind payload →
    record.agree id state record.start →
    ∃ next, Takes (body ⟨ttypeOf kind, id⟩ state) payload next ∧ record.agree id next value ∧
      ∀ other ∈ record.known, other ≠ id → ∀ target, record.agree other state target →
        record.agree other next target
  extra : ∀ ttype, ∀ id ∉ record.known, ∀ state,
    body ⟨ttype, id⟩ state = (skipValue ttype >>= fun _ => pure state)

/-- The loop: what is still to come is as it started, and what is not, or was left out, is
already right. -/
theorem Follows.reads_whileFields {record : Record σ} {body : FieldHeader → σ → Reader σ}
    (follows : Follows record body) {value : σ} {last : Int16} {todo : List Int16} {bytes : Bytes}
    (fields : record.Fields value last todo bytes) (once : todo.Nodup)
    (ours : ∀ id ∈ todo, id ∈ record.known) {state : σ}
    (started : ∀ id ∈ todo, record.agree id state record.start)
    (right : ∀ id ∈ record.known, id ∉ todo ∨ record.agree id record.start value →
      record.agree id state value) :
    ∃ final after, (∀ rounds, bytes.length ≤ rounds →
        Reads (whileFields body rounds state) last bytes final after) ∧
      ∀ id ∈ record.known, record.agree id final value := by
  induction fields generalizing state with
  | @stop last todo omitted =>
    refine ⟨state, last, fun rounds enough => ?_, fun id known => right id known ?_⟩
    · obtain ⟨rounds, rfl⟩ : ∃ fewer, rounds = fewer + 1 := ⟨rounds - 1, by simp at enough; omega⟩
      exact (reads_stop last).map rfl
    · by_cases waiting : id ∈ todo
      · exact Or.inr (omitted id waiting)
      · exact Or.inl waiting
  | @own last id todo kind head payload rest waiting header written tail ih =>
    obtain ⟨next, read, set, kept⟩ := follows.own value id (ours id waiting) kind payload state
      written (started id waiting)
    have fewer : ∀ other ∈ todo.erase id, other ≠ id ∧ other ∈ todo := by
      intro other member
      exact once.mem_erase_iff.mp member
    have waits : ∀ other ∈ todo.erase id, record.agree other next record.start := by
      intro other member
      obtain ⟨different, before⟩ := fewer other member
      exact kept other (ours other before) different _ (started other before)
    have settled : ∀ other ∈ record.known,
        other ∉ todo.erase id ∨ record.agree other record.start value →
          record.agree other next value := by
      intro other known settled
      by_cases same : other = id
      · exact same ▸ set
      · apply kept other known same
        apply right other known
        rcases settled with gone | omitted
        · exact Or.inl fun waits => gone ((List.mem_erase_of_ne same).mpr waits)
        · exact Or.inr omitted
    obtain ⟨final, after, later, agrees⟩ := ih (once.erase id)
      (fun other member => ours other (fewer other member).2) waits settled
    refine ⟨final, after, fun rounds enough => ?_, agrees⟩
    have some := header.length_pos
    simp only [List.length_append] at enough
    obtain ⟨rounds, rfl⟩ : ∃ fewer, rounds = fewer + 1 := ⟨rounds - 1, by omega⟩
    apply (reads_readFieldHeader header).bind
    exact (read id).bind (later rounds (by omega))
  | @extra last id todo kind head payload rest unknown header encoded tail ih =>
    obtain ⟨final, after, later, agrees⟩ := ih once ours started right
    refine ⟨final, after, fun rounds enough => ?_, agrees⟩
    have some := header.length_pos
    simp only [List.length_append] at enough
    obtain ⟨rounds, rfl⟩ : ∃ fewer, rounds = fewer + 1 := ⟨rounds - 1, by omega⟩
    apply (reads_readFieldHeader header).bind
    simp only [follows.extra _ id unknown]
    have skipped : Reads (skipValue (ttypeOf kind) >>= fun _ => pure state) id payload state id :=
      (takes_skipValue encoded id).map rfl
    exact skipped.bind (later rounds (by omega))

/-- A struct reader: the frame, the loop, and the frame again. -/
def structReader (body : FieldHeader → σ → Reader σ) (start : σ) : Reader σ := fun reader => (do
  readStructBegin
  let value ← whileFields body (reader.remaining + 1) start
  readStructEnd
  return value : Reader σ) reader

/-- A struct reader that follows a record reads every encoding of every value, up to what the
record's fields say of it. -/
theorem Follows.takes_structReader {record : Record σ} {body : FieldHeader → σ → Reader σ}
    (follows : Follows record body) (once : record.known.Nodup) {value : σ} {bytes : Bytes}
    (encodes : record.Encodes value bytes) :
    ∃ final, Takes (structReader body record.start) bytes final ∧
      ∀ id ∈ record.known, record.agree id final value := by
  have right : ∀ id ∈ record.known, id ∉ record.known ∨ record.agree id record.start value →
      record.agree id record.start value := by
    intro id known settled
    rcases settled with gone | omitted
    · exact absurd known gone
    · exact omitted
  obtain ⟨final, after, loop, agrees⟩ := follows.reads_whileFields encodes once
    (fun id member => member) follows.fresh right
  refine ⟨final, fun last front back stack fits => ?_, agrees⟩
  have enough : bytes.length ≤
      remaining ⟨front ++ (bytes ++ back), front.length, last, stack⟩ + 1 := by
    simp only [remaining, List.length_append]
    omega
  exact reads_readStructBegin_end id (loop _ enough) last front back stack fits

end Structs

end Rdwarfs.Guarantees.CompactDecoding
