import Mathlib.Data.List.Basic
import Mathlib.Tactic.Common

/-!
# JSON texts

A decoder for RFC 8259: every text of the grammar that means a value, and nothing else. Numbers
are decimal fractions, strings are sequences of characters, in which a surrogate has to be one of
a pair, and the members of an object keep their order. Beside it the rules by which a text put
together from smaller ones decodes.
-/
namespace Rdwarfs.Lib.Json

inductive Value where
  | null
  | bool (value : Bool)
  /-- `mantissa * 10 ^ exponent` -/
  | number (mantissa exponent : Int)
  | string (text : String)
  | array (items : List Value)
  | object (members : List (String × Value))
  deriving Repr

section Decoder

def isSpace (c : Char) : Bool := c == ' ' || c == '\t' || c == '\n' || c == '\r'

def skip (text : List Char) : List Char := text.dropWhile isSpace

def hexValue (c : Char) : Option Nat :=
  if '0' ≤ c ∧ c ≤ '9' then some (c.toNat - 48)
  else if 'a' ≤ c ∧ c ≤ 'f' then some (c.toNat - 87)
  else if 'A' ≤ c ∧ c ≤ 'F' then some (c.toNat - 55)
  else none

/-- The four digits after `\u`. -/
def hex4 : List Char → Option (Nat × List Char)
  | a :: b :: c :: d :: rest => do
    let a ← hexValue a
    let b ← hexValue b
    let c ← hexValue c
    let d ← hexValue d
    return (((a * 16 + b) * 16 + c) * 16 + d, rest)
  | _ => none

/-- The second of a pair of surrogates; the two make one character. -/
def lowSurrogate (high : Nat) : List Char → Option (Char × List Char)
  | '\\' :: 'u' :: rest => do
    let (low, rest) ← hex4 rest
    if 0xDC00 ≤ low ∧ low < 0xE000 then
      return (Char.ofNat (0x10000 + (high - 0xD800) * 0x400 + (low - 0xDC00)), rest)
    else none
  | _ => none

/-- What follows a backslash. -/
def escaped : List Char → Option (Char × List Char)
  | '"' :: rest => some ('"', rest)
  | '\\' :: rest => some ('\\', rest)
  | '/' :: rest => some ('/', rest)
  | 'b' :: rest => some ('\x08', rest)
  | 'f' :: rest => some ('\x0c', rest)
  | 'n' :: rest => some ('\n', rest)
  | 'r' :: rest => some ('\r', rest)
  | 't' :: rest => some ('\t', rest)
  | 'u' :: rest => do
    let (unit, rest) ← hex4 rest
    if 0xD800 ≤ unit ∧ unit < 0xDC00 then lowSurrogate unit rest
    else if 0xDC00 ≤ unit ∧ unit < 0xE000 then none
    else return (Char.ofNat unit, rest)
  | _ => none

/-- One character of a string: escaped, or as it is if it is no control character. -/
def character : List Char → Option (Char × List Char)
  | [] => none
  | '\\' :: rest => escaped rest
  | c :: rest => if c.toNat < 0x20 then none else some (c, rest)

/-- The characters up to the closing quote. -/
def characters : Nat → List Char → Option (List Char × List Char)
  | 0, _ => none
  | _ + 1, '"' :: rest => some ([], rest)
  | fuel + 1, text => do
    let (c, rest) ← character text
    let (later, rest) ← characters fuel rest
    return (c :: later, rest)

def digits (text : List Char) : List Char × List Char :=
  (text.takeWhile Char.isDigit, text.dropWhile Char.isDigit)

/-- One or more digits. -/
def someDigits (text : List Char) : Option (List Char × List Char) :=
  if (digits text).1 = [] then none else some (digits text)

/-- The integer part: a zero alone, or digits that do not start with one. -/
def whole (text : List Char) : Option (List Char × List Char) := do
  let (ds, rest) ← someDigits text
  if ds.head? = some '0' ∧ ds.length ≠ 1 then none else return (ds, rest)

def fraction : List Char → Option (List Char × List Char)
  | '.' :: rest => someDigits rest
  | text => some ([], text)

def signed : List Char → Bool × List Char
  | '-' :: rest => (true, rest)
  | '+' :: rest => (false, rest)
  | text => (false, text)

def signedValue (negative : Bool) (ds : List Char) : Int :=
  if negative then -(Nat.ofDigitChars 10 ds 0 : Int) else Nat.ofDigitChars 10 ds 0

def exponent : List Char → Option (Int × List Char)
  | c :: rest =>
    if c = 'e' ∨ c = 'E' then do
      let (negative, rest) := signed rest
      let (ds, rest) ← someDigits rest
      return (signedValue negative ds, rest)
    else some (0, c :: rest)
  | [] => some (0, [])

def number (text : List Char) : Option (Value × List Char) := do
  let (negative, text) := match text with
    | '-' :: rest => (true, rest)
    | text => (false, text)
  let (ds, text) ← whole text
  let (more, text) ← fraction text
  let (power, text) ← exponent text
  return (.number (signedValue negative (ds ++ more)) (power - more.length), text)

mutual

def value : Nat → List Char → Option (Value × List Char)
  | 0, _ => none
  | fuel + 1, text =>
    match skip text with
    | 'n' :: 'u' :: 'l' :: 'l' :: rest => some (.null, rest)
    | 't' :: 'r' :: 'u' :: 'e' :: rest => some (.bool true, rest)
    | 'f' :: 'a' :: 'l' :: 's' :: 'e' :: rest => some (.bool false, rest)
    | '"' :: rest => do
      let (text, rest) ← characters (rest.length + 1) rest
      return (.string (String.ofList text), rest)
    | '[' :: rest =>
      match skip rest with
      | ']' :: rest => some (.array [], rest)
      | rest => do
        let (items, rest) ← items fuel rest
        return (.array items, rest)
    | '\x7b' :: rest =>
      match skip rest with
      | '\x7d' :: rest => some (.object [], rest)
      | rest => do
        let (members, rest) ← members fuel rest
        return (.object members, rest)
    | text => number text

/-- The items of an array, of which there is at least one more. -/
def items : Nat → List Char → Option (List Value × List Char)
  | 0, _ => none
  | fuel + 1, text => do
    let (item, rest) ← value fuel text
    match skip rest with
    | ']' :: rest => return ([item], rest)
    | ',' :: rest => do
      let (later, rest) ← items fuel rest
      return (item :: later, rest)
    | _ => none

/-- The members of an object, of which there is at least one more. -/
def members : Nat → List Char → Option (List (String × Value) × List Char)
  | 0, _ => none
  | fuel + 1, text =>
    match skip text with
    | '"' :: rest => do
      let (name, rest) ← characters (rest.length + 1) rest
      match skip rest with
      | ':' :: rest => do
        let (item, rest) ← value fuel rest
        match skip rest with
        | '\x7d' :: rest => return ([(String.ofList name, item)], rest)
        | ',' :: rest => do
          let (later, rest) ← members fuel rest
          return ((String.ofList name, item) :: later, rest)
        | _ => none
      | _ => none
    | _ => none

end

/-- The value of a whole text. -/
def decode (text : String) : Option Value := do
  let (found, rest) ← value (text.toList.length + 1) text.toList
  if skip rest = [] then return found else none

example : (decode "[1,]").isNone ∧ (decode "01").isNone ∧ (decode "\"\n\"").isNone := by
  decide

end Decoder

section Spaces

theorem skip_of_not_space {c : Char} (ink : isSpace c = false) (rest : List Char) :
    skip (c :: rest) = c :: rest := by
  rw [skip, List.dropWhile_cons_of_neg (by simp [ink])]

theorem isSpace_of_digit {c : Char} (digit : c.isDigit = true) : isSpace c = false := by
  by_contra space
  simp only [isSpace, Bool.not_eq_false, Bool.or_eq_true, beq_iff_eq] at space
  rcases space with ((rfl | rfl) | rfl) | rfl <;> exact absurd digit (by decide)

end Spaces

section Numbers

/-- What cannot continue a number. -/
def Ends (rest : List Char) : Prop :=
  ∀ c later, rest = c :: later → c.isDigit = false ∧ c ≠ '.' ∧ c ≠ 'e' ∧ c ≠ 'E'

theorem ends_nil : Ends [] := fun _ _ absurd_ => by cases absurd_

theorem ends_cons {c : Char} (other : c.isDigit = false ∧ c ≠ '.' ∧ c ≠ 'e' ∧ c ≠ 'E')
    (later : List Char) : Ends (c :: later) := fun _ _ same => by
  cases same
  exact other

variable {rest : List Char} (ends : Ends rest)
include ends

theorem digits_append {ds : List Char} (all : ∀ c ∈ ds, c.isDigit = true) :
    digits (ds ++ rest) = (ds, rest) := by
  have stop : rest.takeWhile Char.isDigit = [] ∧ rest.dropWhile Char.isDigit = rest := by
    cases rest with
    | nil => exact ⟨rfl, rfl⟩
    | cons c later =>
      have other := (ends c later rfl).1
      exact ⟨List.takeWhile_cons_of_neg (by simp [other]),
        List.dropWhile_cons_of_neg (by simp [other])⟩
  rw [digits, List.takeWhile_append_of_pos all, List.dropWhile_append_of_pos all, stop.1, stop.2,
    List.append_nil]

theorem fraction_of_ends : fraction rest = some ([], rest) := by
  cases rest with
  | nil => rfl
  | cons c later =>
    have other := (ends c later rfl).2.1
    unfold fraction
    split
    · next same =>
      cases same
      exact absurd rfl other
    · rfl

theorem exponent_of_ends : exponent rest = some (0, rest) := by
  cases rest with
  | nil => rfl
  | cons c later =>
    obtain ⟨_, _, lower, upper⟩ := ends c later rfl
    rw [exponent, if_neg (by simp [lower, upper])]

omit ends in
theorem toDigits_cons (n : Nat) :
    ∃ c later, Nat.toDigits 10 n = c :: later ∧ c.isDigit = true := by
  cases digits_ : Nat.toDigits 10 n with
  | nil => exact absurd digits_ Nat.toDigits_ne_nil
  | cons c later =>
    exact ⟨c, later, rfl,
      Nat.isDigit_of_mem_toDigits (by decide) (by decide) (digits_ ▸ List.mem_cons_self)⟩

omit ends in
/-- Only zero is written with a leading zero. -/
theorem head_toDigits (n : Nat) (zero : (Nat.toDigits 10 n).head? = some '0') : n = 0 := by
  induction n using Nat.strongRecOn with
  | ind n ih =>
    by_cases small : n < 10
    · rw [Nat.toDigits_of_lt_base small, List.head?_cons, Option.some.injEq] at zero
      have first : ∀ digit < 10, digit.digitChar = '0' → digit = 0 := by decide
      exact first n small zero
    · rw [Nat.toDigits_of_base_le (by decide) (Nat.le_of_not_lt small)] at zero
      rw [List.head?_append_of_ne_nil _ Nat.toDigits_ne_nil] at zero
      have front := ih (n / 10) (by omega) zero
      omega

theorem whole_toDigits (n : Nat) :
    whole (Nat.toDigits 10 n ++ rest) = some (Nat.toDigits 10 n, rest) := by
  have spanned : digits (Nat.toDigits 10 n ++ rest) = (Nat.toDigits 10 n, rest) :=
    digits_append ends fun c member => Nat.isDigit_of_mem_toDigits (by decide) (by decide) member
  have single : ¬ ((Nat.toDigits 10 n).head? = some '0' ∧ (Nat.toDigits 10 n).length ≠ 1) := by
    rintro ⟨zero, long⟩
    rw [head_toDigits n zero] at long
    exact long rfl
  rw [whole, someDigits, spanned, if_neg Nat.toDigits_ne_nil]
  simp only [Option.bind_eq_bind, Option.bind_some, if_neg single]
  rfl

theorem number_toDigits (n : Nat) :
    number (Nat.toDigits 10 n ++ rest) = some (.number n 0, rest) := by
  have unsigned : ∀ later, Nat.toDigits 10 n ++ rest ≠ '-' :: later := by
    intro later same
    obtain ⟨c, more, shape, digit⟩ := toDigits_cons n
    rw [shape, List.cons_append, List.cons.injEq] at same
    rw [same.1] at digit
    exact absurd digit (by decide)
  unfold number
  split
  next negative text here =>
    split at here
    · next same => exact absurd same (unsigned _)
    · cases here
      simp only [whole_toDigits ends, fraction_of_ends ends, exponent_of_ends ends,
        Option.bind_eq_bind, Option.bind_some, List.append_nil, signedValue, Bool.false_eq_true,
        if_false, Nat.ofDigitChars_ten_toDigits]
      rfl

end Numbers

section Strings

theorem hex4_append {text : List Char} {unit : Nat} (read : hex4 text = some (unit, []))
    (rest : List Char) : hex4 (text ++ rest) = some (unit, rest) := by
  unfold hex4 at read
  split at read
  · next a b c d more =>
    simp only [Option.bind_eq_bind, Option.bind_eq_some_iff] at read
    obtain ⟨high, first, low, second, next, third, last, fourth, same⟩ := read
    cases same
    simp [hex4, first, second, third, fourth]
  · cases read

theorem character_escaped (rest : List Char) : character ('\\' :: rest) = escaped rest := rfl

/-- A spelling of the characters of a text, each of which is read for itself. -/
def Spells (spell : Char → List Char) (text : String) : Prop :=
  ∀ c ∈ text.toList, (∀ rest, character (spell c ++ rest) = some (c, rest)) ∧
    ∃ first later, spell c = first :: later ∧ first ≠ '"'

/-- A text between quotes. -/
def quoted (spell : Char → List Char) (text : String) : List Char :=
  '"' :: (text.toList.flatMap spell ++ ['"'])

theorem characters_of_ne {fuel : Nat} {first c : Char} {later rest : List Char}
    (other : first ≠ '"') (here : character (first :: later) = some (c, rest)) :
    characters (fuel + 1) (first :: later) =
      (characters fuel rest).map fun found => (c :: found.1, found.2) := by
  rw [characters.eq_def]
  simp only
  split
  · next spent => exact absurd spent (by simp)
  · next same => exact absurd (List.cons.inj same).1 other
  · next same _ =>
    cases same
    rw [here]
    simp only [Option.bind_eq_bind, Option.bind_some]
    cases characters fuel rest <;> rfl

theorem characters_flatMap {spell : Char → List Char} {chars : List Char}
    (spells : ∀ c ∈ chars, (∀ rest, character (spell c ++ rest) = some (c, rest)) ∧
      ∃ first later, spell c = first :: later ∧ first ≠ '"')
    (rest : List Char) {fuel : Nat} (enough : (chars.flatMap spell).length < fuel) :
    characters fuel (chars.flatMap spell ++ '"' :: rest) = some (chars, rest) := by
  induction chars generalizing fuel with
  | nil =>
    obtain ⟨less, rfl⟩ := Nat.exists_eq_succ_of_ne_zero (Nat.ne_of_gt (Nat.zero_lt_of_lt enough))
    rfl
  | cons c chars ih =>
    obtain ⟨reads, first, later, spelled, other⟩ := spells c List.mem_cons_self
    obtain ⟨less, rfl⟩ := Nat.exists_eq_succ_of_ne_zero (Nat.ne_of_gt (Nat.zero_lt_of_lt enough))
    rw [List.flatMap_cons, List.length_append, spelled, List.length_cons] at enough
    have here := reads (chars.flatMap spell ++ '"' :: rest)
    have onward := ih (fun other member => spells other (List.mem_cons_of_mem _ member))
      (show (chars.flatMap spell).length < less by omega)
    rw [List.flatMap_cons, List.append_assoc]
    rw [spelled, List.cons_append] at here ⊢
    rw [characters_of_ne other here, onward]
    rfl

theorem characters_quoted {spell : Char → List Char} {text : String} (spells : Spells spell text)
    (rest : List Char) {fuel : Nat} (enough : (quoted spell text ++ rest).length ≤ fuel) :
    characters fuel ((quoted spell text ++ rest).tail) = some (text.toList, rest) := by
  have split : (quoted spell text ++ rest).tail = text.toList.flatMap spell ++ '"' :: rest := by
    simp [quoted]
  rw [split]
  refine characters_flatMap spells rest ?_
  simp only [quoted, List.length_append, List.length_cons] at enough
  omega

/-- A character that stands for itself. -/
def Plain (c : Char) : Prop := 0x20 ≤ c.toNat ∧ c ≠ '"' ∧ c ≠ '\\'

instance : DecidablePred Plain := fun c =>
  inferInstanceAs (Decidable (0x20 ≤ c.toNat ∧ c ≠ '"' ∧ c ≠ '\\'))

theorem character_plain {c : Char} (plain : Plain c) (rest : List Char) :
    character (c :: rest) = some (c, rest) := by
  unfold character
  split
  · next absurd_ => cases absurd_
  · next same =>
    cases same
    exact absurd rfl plain.2.2
  · next same =>
    cases same
    exact if_neg (Nat.not_lt.mpr plain.1)

theorem spells_plain {text : String} (plain : ∀ c ∈ text.toList, Plain c) :
    Spells (fun c => [c]) text :=
  fun c member => ⟨fun rest => character_plain (plain c member) rest,
    c, [], rfl, (plain c member).2.1⟩

end Strings

section Values

/-- Whatever does not continue a number may follow the text of a value. -/
structure Reads (text : List Char) (v : Value) : Prop where
  starts : ∃ c later, text = c :: later ∧ isSpace c = false ∧ c ≠ ']'
  reads : ∀ rest fuel, Ends rest → text.length < fuel → value fuel (text ++ rest) = some (v, rest)

theorem value_of_digit {fuel : Nat} {c : Char} (digit : c.isDigit = true) (rest : List Char) :
    value (fuel + 1) (c :: rest) = number (c :: rest) := by
  rw [value, skip_of_not_space (isSpace_of_digit digit)]
  split <;> first | rfl | (next same => cases same; exact absurd digit (by decide))

theorem reads_number (n : Nat) : Reads (Nat.toDigits 10 n) (.number n 0) where
  starts := by
    obtain ⟨c, later, shape, digit⟩ := toDigits_cons n
    exact ⟨c, later, shape, isSpace_of_digit digit, fun same => absurd (same ▸ digit) (by decide)⟩
  reads := by
    intro rest fuel ends enough
    obtain ⟨less, rfl⟩ := Nat.exists_eq_succ_of_ne_zero (Nat.ne_of_gt (Nat.zero_lt_of_lt enough))
    have read := number_toDigits ends n
    obtain ⟨c, later, shape, digit⟩ := toDigits_cons n
    rw [shape] at read ⊢
    exact (value_of_digit digit _).trans read

theorem reads_string {spell : Char → List Char} {text : String} (spells : Spells spell text) :
    Reads (quoted spell text) (.string text) where
  starts := ⟨'"', _, rfl, by decide, by decide⟩
  reads := by
    intro rest fuel _ enough
    obtain ⟨less, rfl⟩ := Nat.exists_eq_succ_of_ne_zero (Nat.ne_of_gt (Nat.zero_lt_of_lt enough))
    have read := characters_quoted spells rest (Nat.le_refl _)
    rw [quoted, List.cons_append] at read ⊢
    rw [value, skip_of_not_space (by decide)]
    simp only [List.tail_cons, List.length_cons] at read
    simp only [read, Option.bind_eq_bind, Option.bind_some, String.ofList_toList]
    rfl

/-- Parts of a text with a comma between any two. -/
def joined (parts : List (List Char)) : List Char := [','].intercalate parts

theorem joined_cons_cons (part next : List Char) (parts : List (List Char)) :
    joined (part :: next :: parts) = part ++ ',' :: joined (next :: parts) := by
  rw [joined, List.intercalate_cons_cons, List.append_assoc]
  rfl

theorem items_joined {parts : List (List Char)} {values : List Value}
    (each : List.Forall₂ Reads parts values) (some_ : parts ≠ []) (rest : List Char) {fuel : Nat}
    (enough : (joined parts).length + 1 < fuel) :
    items fuel (joined parts ++ ']' :: rest) = some (values, rest) := by
  induction each generalizing fuel with
  | nil => exact absurd rfl some_
  | @cons part v parts values here later ih =>
    obtain ⟨less, rfl⟩ := Nat.exists_eq_succ_of_ne_zero (Nat.ne_of_gt (Nat.zero_lt_of_lt enough))
    cases parts with
    | nil =>
      cases later
      rw [joined, List.intercalate_singleton] at enough ⊢
      rw [items, here.reads _ less (ends_cons (by decide) rest) (by omega)]
      simp only [Option.bind_eq_bind, Option.bind_some,
        skip_of_not_space (show isSpace ']' = false from rfl)]
      rfl
    | cons next parts =>
      rw [joined_cons_cons, List.length_append, List.length_cons] at enough
      rw [joined_cons_cons, List.append_assoc, List.cons_append, items,
        here.reads _ less (ends_cons (by decide) _) (by omega)]
      have onward := ih (List.cons_ne_nil _ _) (show (joined (next :: parts)).length + 1 < less by omega)
      simp only [Option.bind_eq_bind, Option.bind_some,
        skip_of_not_space (show isSpace ',' = false from rfl), onward]
      rfl

theorem reads_array {parts : List (List Char)} {values : List Value}
    (each : List.Forall₂ Reads parts values) :
    Reads ('[' :: (joined parts ++ [']'])) (.array values) where
  starts := ⟨'[', _, rfl, by decide, by decide⟩
  reads := by
    intro rest fuel _ enough
    obtain ⟨less, rfl⟩ := Nat.exists_eq_succ_of_ne_zero (Nat.ne_of_gt (Nat.zero_lt_of_lt enough))
    rw [List.cons_append, List.append_assoc, List.singleton_append, value,
      skip_of_not_space (by decide)]
    simp only
    cases each with
    | nil => rfl
    | @cons part v parts values here later =>
      rw [List.length_cons, List.length_append, List.length_singleton] at enough
      have read := items_joined (.cons here later) (by simp) rest
        (show (joined (part :: parts)).length + 1 < less by omega)
      obtain ⟨c, more, start, ink, open_⟩ := here.starts
      have shape : ∃ behind, joined (part :: parts) ++ ']' :: rest = c :: behind := by
        cases parts with
        | nil => exact ⟨_, by rw [joined, List.intercalate_singleton, start, List.cons_append]⟩
        | cons next parts =>
          exact ⟨_, by rw [joined_cons_cons, start, List.cons_append, List.cons_append]⟩
      obtain ⟨behind, shape⟩ := shape
      rw [shape] at read ⊢
      rw [skip_of_not_space ink]
      split
      · next same =>
        cases same
        exact absurd rfl open_
      · rw [read]
        rfl

/-- The text of a member: its name, a colon and its value. -/
def ReadsMember (text : List Char) (member : String × Value) : Prop :=
  ∃ spell later, Spells spell member.1 ∧ Reads later member.2 ∧
    text = quoted spell member.1 ++ ':' :: later

/-- A member is read up to what follows its value, which a comma or brace ends. -/
theorem members_step {text : List Char} {member : String × Value} (reads : ReadsMember text member)
    {fuel : Nat} {close : Char} (ends : close.isDigit = false ∧ close ≠ '.' ∧ close ≠ 'e' ∧ close ≠ 'E')
    (ink : isSpace close = false) (rest : List Char) (enough : text.length < fuel) :
    members (fuel + 1) (text ++ close :: rest) =
      match close :: rest with
      | '\x7d' :: rest => some ([member], rest)
      | ',' :: rest => (members fuel rest).map fun found => (member :: found.1, found.2)
      | _ => none := by
  obtain ⟨spell, later, spells, read, rfl⟩ := reads
  have name := characters_quoted spells (':' :: (later ++ close :: rest)) (Nat.le_refl _)
  rw [List.length_append, List.length_cons] at enough
  rw [List.append_assoc, List.cons_append]
  rw [quoted, List.cons_append] at name ⊢
  simp only [List.tail_cons, List.length_cons] at name
  have item := read.reads (close :: rest) fuel (ends_cons ends rest) (by omega)
  rw [members]
  simp only [skip_of_not_space (show isSpace '"' = false from rfl), name, Option.bind_eq_bind,
    Option.bind_some, skip_of_not_space (show isSpace ':' = false from rfl), item,
    skip_of_not_space ink, String.ofList_toList]
  split
  · rfl
  · next behind _ => cases members fuel behind <;> rfl
  · rfl

theorem members_joined {parts : List (List Char)} {listed : List (String × Value)}
    (each : List.Forall₂ ReadsMember parts listed) (some_ : parts ≠ []) (rest : List Char)
    {fuel : Nat} (enough : (joined parts).length + 1 < fuel) :
    members fuel (joined parts ++ '\x7d' :: rest) = some (listed, rest) := by
  induction each generalizing fuel with
  | nil => exact absurd rfl some_
  | @cons part member parts listed here later ih =>
    obtain ⟨less, rfl⟩ := Nat.exists_eq_succ_of_ne_zero (Nat.ne_of_gt (Nat.zero_lt_of_lt enough))
    cases parts with
    | nil =>
      cases later
      rw [joined, List.intercalate_singleton] at enough ⊢
      exact members_step here (by decide) (by decide) rest (by omega)
    | cons next parts =>
      rw [joined_cons_cons, List.length_append, List.length_cons] at enough
      rw [joined_cons_cons, List.append_assoc, List.cons_append,
        members_step here (by decide) (by decide) _ (by omega)]
      simp only [ih (List.cons_ne_nil _ _) (show (joined (next :: parts)).length + 1 < less by omega)]
      rfl

theorem reads_object {parts : List (List Char)} {listed : List (String × Value)}
    (each : List.Forall₂ ReadsMember parts listed) :
    Reads ('\x7b' :: (joined parts ++ ['\x7d'])) (.object listed) where
  starts := ⟨'\x7b', _, rfl, by decide, by decide⟩
  reads := by
    intro rest fuel _ enough
    obtain ⟨less, rfl⟩ := Nat.exists_eq_succ_of_ne_zero (Nat.ne_of_gt (Nat.zero_lt_of_lt enough))
    rw [List.cons_append, List.append_assoc, List.singleton_append, value,
      skip_of_not_space (by decide)]
    simp only
    cases each with
    | nil => rfl
    | @cons part member parts listed here later =>
      rw [List.length_cons, List.length_append, List.length_singleton] at enough
      have read := members_joined (.cons here later) (List.cons_ne_nil _ _) rest
        (show (joined (part :: parts)).length + 1 < less by omega)
      have shape : ∃ behind, joined (part :: parts) ++ '\x7d' :: rest = '"' :: behind := by
        obtain ⟨spell, text, _, _, rfl⟩ := here
        cases parts with
        | nil => exact ⟨_, by rw [joined, List.intercalate_singleton]; rfl⟩
        | cons next parts => exact ⟨_, by rw [joined_cons_cons]; rfl⟩
      obtain ⟨behind, shape⟩ := shape
      rw [shape] at read ⊢
      rw [skip_of_not_space (by decide)]
      split
      · next same => cases same
      · rw [read]
        rfl

theorem decode_of_reads {text : String} {v : Value} (reads : Reads text.toList v) :
    decode text = some v := by
  have whole := reads.reads [] (text.toList.length + 1) ends_nil (Nat.lt_succ_self _)
  rw [List.append_nil] at whole
  rw [decode, whole]
  rfl

end Values

end Rdwarfs.Lib.Json
