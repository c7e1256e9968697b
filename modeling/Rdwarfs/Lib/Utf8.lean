import Mathlib.Data.Bool.Basic
import Mathlib.Data.List.Basic
import Mathlib.Data.List.TakeWhile
import Mathlib.Tactic.Common

/-!
# UTF-8

Strict decoding of a byte string: shortest forms only, no surrogates, nothing above
U+10FFFF. Lossy decoding keeps the well-formed sequences and puts the replacement character
for every maximal piece of an ill-formed one; strings are their bytes there.
-/
namespace Rdwarfs.Lib.Utf8

/-- The six payload bits of a continuation byte. -/
def continuation (byte : UInt8) : Option Nat :=
  if 0x80 ≤ byte.toNat ∧ byte.toNat < 0xC0 then some (byte.toNat - 0x80) else none

/-- A scalar value that needs at least the bytes it was written with. -/
def scalar (least value : Nat) : Option Char :=
  if least ≤ value ∧ value.isValidChar then some (Char.ofNat value) else none

def decodeChars : List UInt8 → Option (List Char)
  | [] => some []
  | b0 :: rest =>
    if b0.toNat < 0x80 then do
      let chars ← decodeChars rest
      return Char.ofNat b0.toNat :: chars
    else if b0.toNat < 0xC0 then none
    else
      match rest with
      | [] => none
      | b1 :: rest =>
        if b0.toNat < 0xE0 then do
          let c1 ← continuation b1
          let char ← scalar 0x80 ((b0.toNat - 0xC0) * 64 + c1)
          let chars ← decodeChars rest
          return char :: chars
        else
          match rest with
          | [] => none
          | b2 :: rest =>
            if b0.toNat < 0xF0 then do
              let c1 ← continuation b1
              let c2 ← continuation b2
              let char ← scalar 0x800 ((b0.toNat - 0xE0) * 4096 + c1 * 64 + c2)
              let chars ← decodeChars rest
              return char :: chars
            else
              match rest with
              | [] => none
              | b3 :: rest =>
                if b0.toNat < 0xF8 then do
                  let c1 ← continuation b1
                  let c2 ← continuation b2
                  let c3 ← continuation b3
                  let char ← scalar 0x10000
                    ((b0.toNat - 0xF0) * 262144 + c1 * 4096 + c2 * 64 + c3)
                  let chars ← decodeChars rest
                  return char :: chars
                else none

/-- `str::from_utf8` -/
def decode (bytes : List UInt8) : Option String := (decodeChars bytes).map String.ofList

example : decode [0x73, 0xC3, 0xA9] = some "sé" := by decide

section Encoding

/-- A string's bytes. -/
def encode (text : String) : List UInt8 := text.toList.flatMap String.utf8EncodeChar

theorem toNat_low {n : Nat} (small : n < 256) : (UInt8.ofNat n).toNat = n := by
  rw [UInt8.toNat_ofNat']
  omega

theorem continuation_ofNat {n : Nat} (small : n < 64) :
    continuation (UInt8.ofNat (n + 0x80)) = some n := by
  have byte := toNat_low (show n + 0x80 < 256 by omega)
  rw [continuation, byte, if_pos (by omega)]
  simp

theorem scalar_char {char : Char} {least value : Nat} (same : value = char.toNat)
    (enough : least ≤ char.toNat) : scalar least value = some char := by
  subst same
  have valid : char.toNat.isValidChar := char.valid
  rw [scalar, if_pos ⟨enough, valid⟩, Char.ofNat_toNat]

section Sequences

variable {b0 b1 b2 b3 : UInt8} {c1 c2 c3 : Nat} {char : Char} (rest : List UInt8)

/-- A byte below 0x80 stands for itself. -/
theorem decodeChars_one (low : b0.toNat < 0x80) :
    decodeChars (b0 :: rest) = (decodeChars rest).map (Char.ofNat b0.toNat :: ·) := by
  rw [decodeChars.eq_def]
  dsimp only
  rw [if_pos low]
  cases decodeChars rest <;> rfl

variable (second : continuation b1 = some c1)

include second

theorem decodeChars_two (low : 0xC0 ≤ b0.toNat) (high : b0.toNat < 0xE0)
    (value : scalar 0x80 ((b0.toNat - 0xC0) * 64 + c1) = some char) :
    decodeChars (b0 :: b1 :: rest) = (decodeChars rest).map (char :: ·) := by
  rw [decodeChars.eq_def]
  dsimp only
  rw [if_neg (by omega), if_neg (Nat.not_lt.mpr low), if_pos high, second]
  simp only [Option.bind_eq_bind, Option.bind_some, value]
  cases decodeChars rest <;> rfl

variable (third : continuation b2 = some c2)

include third

theorem decodeChars_three (low : 0xE0 ≤ b0.toNat) (high : b0.toNat < 0xF0)
    (value : scalar 0x800 ((b0.toNat - 0xE0) * 4096 + c1 * 64 + c2) = some char) :
    decodeChars (b0 :: b1 :: b2 :: rest) = (decodeChars rest).map (char :: ·) := by
  rw [decodeChars.eq_def]
  dsimp only
  rw [if_neg (by omega), if_neg (by omega), if_neg (Nat.not_lt.mpr low), if_pos high, second,
    third]
  simp only [Option.bind_eq_bind, Option.bind_some, value]
  cases decodeChars rest <;> rfl

theorem decodeChars_four (fourth : continuation b3 = some c3) (low : 0xF0 ≤ b0.toNat)
    (high : b0.toNat < 0xF8)
    (value : scalar 0x10000 ((b0.toNat - 0xF0) * 262144 + c1 * 4096 + c2 * 64 + c3) = some char) :
    decodeChars (b0 :: b1 :: b2 :: b3 :: rest) = (decodeChars rest).map (char :: ·) := by
  rw [decodeChars.eq_def]
  dsimp only
  rw [if_neg (by omega), if_neg (by omega), if_neg (by omega), if_neg (Nat.not_lt.mpr low),
    if_pos high, second, third, fourth, Option.bind_eq_bind, Option.bind_some, Option.bind_some,
    Option.bind_some, value, Option.bind_eq_bind, Option.bind_some]
  cases decodeChars rest <;> rfl

end Sequences

/-- A character's sequence decodes to it, and what follows decodes by itself. -/
theorem decodeChars_utf8EncodeChar (char : Char) (rest : List UInt8) :
    decodeChars (String.utf8EncodeChar char ++ rest) = (decodeChars rest).map (char :: ·) := by
  have limit : char.toNat < 0x110000 := by
    rcases char.valid with low | ⟨-, high⟩
    · exact Nat.lt_trans low (by omega)
    · exact high
  simp only [String.utf8EncodeChar, Char.toNat_val]
  by_cases one : char.toNat ≤ 0x7f
  · have b0 := toNat_low (show char.toNat < 256 by omega)
    rw [if_pos one, List.singleton_append, decodeChars_one _ (by omega), b0, Char.ofNat_toNat]
  rw [if_neg one]
  by_cases two : char.toNat ≤ 0x7ff
  · have b0 := toNat_low (show char.toNat / 64 % 0x20 + 0xc0 < 256 by omega)
    have c1 := continuation_ofNat (show char.toNat % 0x40 < 64 by omega)
    rw [if_pos two, List.cons_append, List.singleton_append]
    exact decodeChars_two rest c1 (by omega) (by omega) (scalar_char (by omega) (by omega))
  rw [if_neg two]
  by_cases three : char.toNat ≤ 0xffff
  · have b0 := toNat_low (show char.toNat / 4096 % 0x10 + 0xe0 < 256 by omega)
    have c1 := continuation_ofNat (show char.toNat / 64 % 0x40 < 64 by omega)
    have c2 := continuation_ofNat (show char.toNat % 0x40 < 64 by omega)
    rw [if_pos three, List.cons_append, List.cons_append, List.singleton_append]
    exact decodeChars_three rest c1 c2 (by omega) (by omega) (scalar_char (by omega) (by omega))
  · have b0 := toNat_low (show char.toNat / 262144 % 0x08 + 0xf0 < 256 by omega)
    have c1 := continuation_ofNat (show char.toNat / 4096 % 0x40 < 64 by omega)
    have c2 := continuation_ofNat (show char.toNat / 64 % 0x40 < 64 by omega)
    have c3 := continuation_ofNat (show char.toNat % 0x40 < 64 by omega)
    rw [if_neg three, List.cons_append, List.cons_append, List.cons_append, List.singleton_append]
    exact decodeChars_four rest c1 c2 c3 (by omega) (by omega)
      (scalar_char (by omega) (by omega))

theorem decodeChars_flatMap (chars : List Char) :
    decodeChars (chars.flatMap String.utf8EncodeChar) = some chars := by
  induction chars with
  | nil => rw [List.flatMap_nil, decodeChars]
  | cons char rest ih => rw [List.flatMap_cons, decodeChars_utf8EncodeChar, ih, Option.map_some]

/-- Every string decodes from its bytes. -/
theorem decode_encode (text : String) : decode (encode text) = some text := by
  rw [decode, encode, decodeChars_flatMap, Option.map_some, String.ofList_toList]

end Encoding

section Lossy

def isContinuation (byte : UInt8) : Bool := 0x80 ≤ byte && byte < 0xC0

/-- The bytes of a sequence that starts with `b0`; 0 where none does. -/
def width (b0 : UInt8) : Nat :=
  if b0 < 0x80 then 1
  else if b0 < 0xC2 then 0
  else if b0 < 0xE0 then 2
  else if b0 < 0xF0 then 3
  else if b0 < 0xF5 then 4
  else 0

/-- No longer form than needed, no surrogate, nothing above U+10FFFF. -/
def secondAllowed (b0 b1 : UInt8) : Bool :=
  if b0 = 0xE0 then 0xA0 ≤ b1 && b1 < 0xC0
  else if b0 = 0xED then 0x80 ≤ b1 && b1 < 0xA0
  else if b0 = 0xF0 then 0x90 ≤ b1 && b1 < 0xC0
  else if b0 = 0xF4 then 0x80 ≤ b1 && b1 < 0x90
  else isContinuation b1

/-- How many bytes after `b0` belong to its sequence, and whether that makes it whole. -/
def tail (b0 : UInt8) (rest : List UInt8) : Nat × Bool :=
  if width b0 = 0 then (0, false)
  else if width b0 = 1 then (0, true)
  else
    match rest with
    | [] => (0, false)
    | b1 :: rest =>
      if secondAllowed b0 b1 then
        let more := ((rest.take (width b0 - 2)).takeWhile isContinuation).length
        (1 + more, more == width b0 - 2)
      else (0, false)

/-- U+FFFD -/
def replacement : List UInt8 := [0xEF, 0xBF, 0xBD]

/-- `String::from_utf8_lossy` -/
def lossy : List UInt8 → List UInt8
  | [] => []
  | b0 :: rest =>
    let (more, whole) := tail b0 rest
    (if whole then b0 :: rest.take more else replacement) ++ lossy (rest.drop more)
termination_by bytes => bytes.length
decreasing_by simp only [List.length_drop, List.length_cons]; omega

/-- What `str::from_utf8` accepts. -/
def wellFormed : List UInt8 → Bool
  | [] => true
  | b0 :: rest =>
    let (more, whole) := tail b0 rest
    whole && wellFormed (rest.drop more)
termination_by bytes => bytes.length
decreasing_by simp only [List.length_drop, List.length_cons]; omega

theorem wellFormed_cons (b0 : UInt8) (rest : List UInt8) :
    wellFormed (b0 :: rest) =
      ((tail b0 rest).2 && wellFormed (rest.drop (tail b0 rest).1)) := by
  rw [wellFormed]

/-- Nothing is lost exactly from what was UTF-8 to begin with. -/
theorem lossy_eq_self_iff (bytes : List UInt8) : lossy bytes = bytes ↔ wellFormed bytes = true := by
  fun_induction lossy bytes with
  | case1 => simp [wellFormed]
  | case2 b0 rest more whole at_ ih =>
    rw [wellFormed_cons, at_]
    cases whole with
    | true =>
      simp only [if_true, Bool.true_and, List.cons_append]
      rw [← ih]
      constructor
      · intro same
        have both : rest.take more ++ lossy (rest.drop more) = rest.take more ++ rest.drop more := by
          rw [List.take_append_drop]
          exact List.tail_eq_of_cons_eq same
        exact List.append_cancel_left both
      · intro same
        rw [same, List.take_append_drop]
    | false =>
      -- the replacement is itself well formed, so the bytes cannot have begun with it
      simp only [Bool.false_eq_true, if_false, Bool.false_and, iff_false]
      intro same
      obtain ⟨rfl, rest_⟩ := List.cons_eq_cons.mp same
      rw [← rest_] at at_
      revert at_
      simp [tail, width, secondAllowed, isContinuation]

end Lossy

section Texts

theorem continuation_of_isContinuation {byte : UInt8} (continues : isContinuation byte = true) :
    continuation byte = some (byte.toNat - 0x80) ∧ 0x80 ≤ byte.toNat ∧ byte.toNat < 0xC0 := by
  simp only [isContinuation, Bool.and_eq_true, decide_eq_true_eq, UInt8.le_iff_toNat_le,
    UInt8.lt_iff_toNat_lt] at continues
  have bounds : 0x80 ≤ byte.toNat ∧ byte.toNat < 0xC0 := continues
  exact ⟨if_pos bounds, bounds⟩

theorem scalar_of_bounds {least value : Nat} (enough : least ≤ value)
    (valid : value < 0xD800 ∨ 0xDFFF < value ∧ value < 0x110000) :
    scalar least value = some (Char.ofNat value) := if_pos ⟨enough, valid⟩

theorem width_eq (b0 : UInt8) : width b0 =
    if b0.toNat < 0x80 then 1 else if b0.toNat < 0xC2 then 0 else if b0.toNat < 0xE0 then 2
    else if b0.toNat < 0xF0 then 3 else if b0.toNat < 0xF5 then 4 else 0 := by
  simp only [width, UInt8.lt_iff_toNat_lt]
  rfl

/-- What the second byte may be, by the first. -/
theorem second_of_allowed {b0 b1 : UInt8} (allowed : secondAllowed b0 b1 = true) :
    (0x80 ≤ b1.toNat ∧ b1.toNat < 0xC0) ∧ (b0.toNat = 0xE0 → 0xA0 ≤ b1.toNat) ∧
      (b0.toNat = 0xED → b1.toNat < 0xA0) ∧ (b0.toNat = 0xF0 → 0x90 ≤ b1.toNat) ∧
      (b0.toNat = 0xF4 → b1.toNat < 0x90) := by
  have same (value : UInt8) : b0 = value ↔ b0.toNat = value.toNat := UInt8.toNat_inj.symm
  simp only [secondAllowed, isContinuation, same, UInt8.le_iff_toNat_le, UInt8.lt_iff_toNat_lt,
    UInt8.reduceToNat] at allowed
  grind

/-- The rest of a whole sequence are as many continuation bytes as its first asks for. -/
theorem continued {count : Nat} {rest : List UInt8}
    (all : ((rest.take count).takeWhile isContinuation).length = count) :
    (rest.take count).length = count ∧ ∀ byte ∈ rest.take count, isContinuation byte = true := by
  have front : ((rest.take count).takeWhile isContinuation).length ≤ (rest.take count).length :=
    (List.takeWhile_prefix _).length_le
  have short : (rest.take count).length ≤ count := List.length_take_le _ _
  have full : (rest.take count).takeWhile isContinuation = rest.take count :=
    (List.takeWhile_prefix _).eq_of_length (by omega)
  exact ⟨by omega, List.takeWhile_eq_self_iff.mp full⟩

/-- A whole sequence decodes to one character, and what follows by itself. -/
theorem decodeChars_whole {b0 : UInt8} {rest : List UInt8} {more : Nat}
    (whole : tail b0 rest = (more, true)) (after : List UInt8) :
    ∃ char, decodeChars (b0 :: (rest.take more ++ after)) = (decodeChars after).map (char :: ·) := by
  have wide := width_eq b0
  unfold tail at whole
  split at whole
  · cases whole
  next some_ =>
  split at whole
  next one =>
    cases whole
    rw [List.take_zero, List.nil_append]
    exact ⟨_, decodeChars_one after (by grind)⟩
  next more_ =>
  split at whole
  · cases whole
  next b1 rest =>
  split at whole
  next allowed =>
    obtain ⟨⟨low, high⟩, e0, ed, f0, f4⟩ := second_of_allowed allowed
    have second : continuation b1 = some (b1.toNat - 0x80) := if_pos ⟨low, high⟩
    simp only [Prod.mk.injEq, beq_iff_eq] at whole
    obtain ⟨rfl, whole⟩ := whole
    obtain ⟨full, all⟩ := continued whole
    rw [whole, Nat.add_comm, List.take_succ_cons]
    by_cases two : b0.toNat < 0xE0
    · have narrow : width b0 = 2 := by grind
      rw [narrow]
      exact ⟨_, decodeChars_two after second (by grind) two (scalar_of_bounds (by grind) (by grind))⟩
    by_cases three : b0.toNat < 0xF0
    · have wider : width b0 = 3 := by grind
      rw [wider] at full all ⊢
      obtain ⟨b2, front⟩ := List.length_eq_one_iff.mp full
      rw [front] at all ⊢
      obtain ⟨third, low2, high2⟩ := continuation_of_isContinuation (all b2 (by simp))
      exact ⟨_, decodeChars_three after second third (by grind) three
        (scalar_of_bounds (by grind) (by grind))⟩
    · have widest : width b0 = 4 := by grind
      rw [widest] at full all ⊢
      obtain ⟨b2, b3, front⟩ := List.length_eq_two.mp full
      rw [front] at all ⊢
      obtain ⟨third, low2, high2⟩ := continuation_of_isContinuation (all b2 (by simp))
      obtain ⟨fourth, low3, high3⟩ := continuation_of_isContinuation (all b3 (by simp))
      exact ⟨_, decodeChars_four after second third fourth (by grind) (by grind)
        (scalar_of_bounds (by grind) (by grind))⟩
  next => cases whole

/-- Lossy decoding leaves nothing to refuse. -/
theorem decode_lossy_some (bytes : List UInt8) : ∃ chars, decodeChars (lossy bytes) = some chars := by
  fun_induction lossy bytes with
  | case1 => exact ⟨[], by rw [decodeChars]⟩
  | case2 b0 rest more whole at_ ih =>
    obtain ⟨chars, later⟩ := ih
    cases whole with
    | true =>
      obtain ⟨char, here⟩ := decodeChars_whole at_ (lossy (rest.drop more))
      rw [if_pos rfl, List.cons_append, here, later]
      exact ⟨_, rfl⟩
    | false =>
      have whole : tail 0xEF [0xBF, 0xBD] = (2, true) := by decide
      obtain ⟨char, here⟩ := decodeChars_whole whole (lossy (rest.drop more))
      rw [if_neg (by decide)]
      exact ⟨char :: chars, here.trans (by rw [later, Option.map_some])⟩

theorem decode_lossy_isSome (bytes : List UInt8) : (decode (lossy bytes)).isSome = true := by
  obtain ⟨chars, decoded⟩ := decode_lossy_some bytes
  rw [decode, decoded]
  rfl

/-- What lossy decoding makes of a byte string, as text. -/
def lossyText (bytes : List UInt8) : String :=
  (decode (lossy bytes)).get (decode_lossy_isSome bytes)

example : lossyText [0x61, 0xFF] = "a\uFFFD" := by decide +kernel

end Texts

end Rdwarfs.Lib.Utf8
