import Rdwarfs.Source.Dwarfs

/-!
# The options of a mount

Which texts `cachesize` takes and what they stand for, and what a list of `-o` arguments comes to:
the pieces between commas are read in order, however they are grouped, the last `cachesize` and the
last `offset` count, and what is left goes to FUSE as it was given.
-/
namespace Rdwarfs.Guarantees.MountOptions

open Lib.Machine Source Source.Dwarfs

/-- The number that decimal digits spell. -/
def decimal (digits : List Char) : Nat :=
  digits.foldl (fun value c => value * 10 + (c.toNat - '0'.toNat)) 0

/-- A word in decimal, with or without a sign. -/
def DecimalText (text : List Char) (value : Nat) : Prop :=
  ∃ sign digits, text = sign ++ digits ∧ (sign = [] ∨ sign = ['+']) ∧ digits ≠ [] ∧
    (∀ c ∈ digits, c.isDigit) ∧ decimal digits = value

/-- A number and letters, which are a unit with any `b`s behind it, between white space. -/
def SizeText (text : List Char) (number scale : Nat) : Prop :=
  ∃ front digits letters back unit bs, text = front ++ (digits ++ letters) ++ back ∧
    (∀ c ∈ front, whiteSpace c) ∧ (∀ c ∈ back, whiteSpace c) ∧ DecimalText digits number ∧
    (∀ c ∈ letters, c.isAlpha) ∧ letters.map Char.toLower = unit ++ List.replicate bs 'b' ∧
    scaleOf unit = some scale

section Numbers

theorem foldl_none (digits : List Char) : digits.foldl pushDigit none = none := by
  induction digits with
  | nil => rfl
  | cons c rest ih => exact ih

theorem pushDigit_some (value : Nat) (c : Char) : pushDigit (some value) c =
    if c.isDigit ∧ value * 10 + (c.toNat - '0'.toNat) < wordLimit then
      some (value * 10 + (c.toNat - '0'.toNat)) else none := by
  by_cases isDigit : c.isDigit
  · by_cases fits : value * 10 + (c.toNat - '0'.toNat) < wordLimit
    · rw [if_pos ⟨isDigit, fits⟩]
      simp only [pushDigit, Option.bind_eq_bind, Option.bind_some, isDigit, if_true,
        Arith.checkedMul_of_lt _ (show value * 10 < wordLimit by omega), checkedAddWord_of_lt fits]
    · rw [if_neg fun both => fits both.2]
      simp only [pushDigit, Option.bind_eq_bind, Option.bind_some, isDigit, if_true,
        Arith.checkedMul, checkedAddWord, Arith.checkedAdd]
      by_cases scaled : value * 10 < wordLimit
      · rw [if_pos scaled, Option.bind_some, if_neg fits]
      · rw [if_neg scaled, Option.bind_none]
  · rw [if_neg fun both => isDigit both.1]
    simp [pushDigit, isDigit]

theorem foldl_ge (digits : List Char) (value : Nat) :
    value ≤ digits.foldl (fun value c => value * 10 + (c.toNat - '0'.toNat)) value := by
  induction digits generalizing value with
  | nil => exact Nat.le_refl value
  | cons c rest ih =>
    have step : value ≤ value * 10 + (c.toNat - '0'.toNat) := by omega
    exact Nat.le_trans step (ih _)

theorem foldl_eq_some {digits : List Char} {value result : Nat} (fits : value < wordLimit) :
    digits.foldl pushDigit (some value) = some result ↔ (∀ c ∈ digits, c.isDigit) ∧
      digits.foldl (fun value c => value * 10 + (c.toNat - '0'.toNat)) value = result ∧
      result < wordLimit := by
  induction digits generalizing value with
  | nil =>
    simp only [List.foldl_nil, Option.some.injEq, List.not_mem_nil, false_implies, implies_true,
      true_and]
    exact ⟨fun same => ⟨same, same ▸ fits⟩, fun both => both.1⟩
  | cons c rest ih =>
    rw [List.foldl_cons, List.foldl_cons, pushDigit_some, List.forall_mem_cons]
    by_cases next : c.isDigit ∧ value * 10 + (c.toNat - '0'.toNat) < wordLimit
    · rw [if_pos next, ih next.2, and_iff_right next.1]
    · rw [if_neg next, foldl_none]
      refine iff_of_false (fun impossible => nomatch impossible) fun all => ?_
      have grows := foldl_ge rest (value * 10 + (c.toNat - '0'.toNat))
      obtain ⟨⟨isDigit, -⟩, same, word⟩ := all
      exact next ⟨isDigit, by omega⟩

theorem parseU64_eq_some {text : List Char} {value : Nat} :
    parseU64 text = some value ↔ DecimalText text value ∧ value < wordLimit := by
  have zero : 0 < wordLimit := by decide
  have plusDigit : ('+' : Char).isDigit = false := by decide
  unfold parseU64 DecimalText
  dsimp only
  constructor
  · intro parsed
    by_cases signed : text.head? = some '+'
    · rw [if_pos signed] at parsed
      split at parsed
      · cases parsed
      · rename_i some_
        obtain ⟨digits, same, word⟩ := (foldl_eq_some zero).mp parsed
        obtain ⟨rest, rfl⟩ := List.head?_eq_some_iff.mp signed
        exact ⟨⟨['+'], rest, rfl, Or.inr rfl, some_, digits, same⟩, word⟩
    · rw [if_neg signed] at parsed
      split at parsed
      · cases parsed
      · rename_i some_
        obtain ⟨digits, same, word⟩ := (foldl_eq_some zero).mp parsed
        exact ⟨⟨[], text, rfl, Or.inl rfl, some_, digits, same⟩, word⟩
  · intro given
    obtain ⟨⟨sign, digits, rfl, signs, some_, all, same⟩, word⟩ := given
    have unsigned : (if (sign ++ digits).head? = some '+' then (sign ++ digits).drop 1
        else sign ++ digits) = digits := by
      cases signs with
      | inl none_ =>
        subst none_
        rw [List.nil_append, if_neg]
        intro plus
        have isDigit := all '+' (List.mem_of_mem_head? plus)
        rw [plusDigit] at isDigit
        cases isDigit
      | inr plus =>
        subst plus
        rfl
    rw [unsigned, if_neg some_]
    exact (foldl_eq_some zero).mpr ⟨all, same, word⟩

end Numbers

section Trimming

variable {α : Type} {p : α → Bool}

theorem rdropWhile_append {front back : List α} (all : ∀ x ∈ back, p x) :
    (front ++ back).rdropWhile p = front.rdropWhile p := by
  rw [List.rdropWhile, List.reverse_append, List.dropWhile_append_of_pos, List.rdropWhile]
  exact fun x member => all x (List.mem_reverse.mp member)

theorem rdropWhile_of_none {xs : List α} (none_ : ∀ x ∈ xs, ¬ p x) : xs.rdropWhile p = xs :=
  List.rdropWhile_eq_self_iff.mpr fun some_ => none_ _ (List.getLast_mem some_)

theorem bounds_of_isAlpha {c : Char} (letter : c.isAlpha) :
    (65 ≤ c.toNat ∧ c.toNat ≤ 90) ∨ (97 ≤ c.toNat ∧ c.toNat ≤ 122) := by
  cases Bool.or_eq_true_iff.mp letter with
  | inl upper =>
    have both := of_decide_eq_true upper
    exact Or.inl ⟨UInt32.le_iff_toNat_le.mp both.1, UInt32.le_iff_toNat_le.mp both.2⟩
  | inr lower =>
    obtain ⟨low, high⟩ := Bool.and_eq_true_iff.mp lower
    exact Or.inr ⟨UInt32.le_iff_toNat_le.mp (of_decide_eq_true low),
      UInt32.le_iff_toNat_le.mp (of_decide_eq_true high)⟩

theorem bounds_of_isDigit {c : Char} (digit : c.isDigit) : 48 ≤ c.toNat ∧ c.toNat ≤ 57 := by
  obtain ⟨low, high⟩ := Bool.and_eq_true_iff.mp digit
  exact ⟨UInt32.le_iff_toNat_le.mp (of_decide_eq_true low),
    UInt32.le_iff_toNat_le.mp (of_decide_eq_true high)⟩

theorem not_whiteSpace_of_bounds {c : Char} (low : 48 ≤ c.toNat) (high : c.toNat ≤ 122) :
    ¬ whiteSpace c := by
  simp only [whiteSpace, decide_eq_true_eq]
  omega

theorem not_whiteSpace_of_decimal {text : List Char} {value : Nat} (spelled : DecimalText text value) :
    ∀ c ∈ text, ¬ whiteSpace c := by
  obtain ⟨sign, digits, rfl, signs, -, all, -⟩ := spelled
  intro c member
  cases List.mem_append.mp member with
  | inl isSign =>
    cases signs with
    | inl none_ =>
      subst none_
      cases isSign
    | inr plus =>
      subst plus
      rw [List.mem_singleton.mp isSign]
      decide
  | inr isDigit =>
    have bounds := bounds_of_isDigit (all c isDigit)
    exact not_whiteSpace_of_bounds bounds.1 (by omega)

/-- A number in decimal does not end in a letter. -/
theorem rdropWhile_decimal {text : List Char} {value : Nat} (spelled : DecimalText text value) :
    text.rdropWhile Char.isAlpha = text := by
  obtain ⟨sign, digits, rfl, -, some_, all, -⟩ := spelled
  apply List.rdropWhile_eq_self_iff.mpr
  intro nonempty
  rw [List.getLast_append_of_ne_nil _ some_]
  intro letter
  have digit := bounds_of_isDigit (all _ (List.getLast_mem some_))
  have bounds := bounds_of_isAlpha letter
  omega

theorem rdropWhile_unit {unit : List Char} {scale : Nat} (known : scaleOf unit = some scale) :
    unit.rdropWhile (· = 'b') = unit := by
  unfold scaleOf at known
  split at known
  all_goals first
    | rfl
    | cases known

end Trimming

section Sizes

theorem trim_between {front middle back : List Char} (before : ∀ c ∈ front, whiteSpace c)
    (after : ∀ c ∈ back, whiteSpace c) (plain : ∀ c ∈ middle, ¬ whiteSpace c) :
    trim (front ++ middle ++ back) = middle := by
  rw [trim, List.append_assoc, List.dropWhile_append_of_pos before]
  by_cases none_ : middle = []
  · subst none_
    rw [List.nil_append]
    have all : (back.dropWhile whiteSpace).rdropWhile whiteSpace = [] :=
      List.rdropWhile_eq_nil_iff.mpr fun c member =>
        after c ((List.dropWhile_suffix _).subset member)
    exact all
  · obtain ⟨c, rest, rfl⟩ := List.exists_cons_of_ne_nil none_
    rw [List.cons_append, List.dropWhile_cons_of_neg (plain c (List.mem_cons_self ..)),
      ← List.cons_append, rdropWhile_append after, rdropWhile_of_none plain]

/-- What `trim` drops. -/
theorem trim_split (text : List Char) : ∃ front back, text = front ++ trim text ++ back ∧
    (∀ c ∈ front, whiteSpace c) ∧ ∀ c ∈ back, whiteSpace c := by
  refine ⟨text.takeWhile whiteSpace, (text.dropWhile whiteSpace).rtakeWhile whiteSpace, ?_, ?_, ?_⟩
  · rw [trim, List.append_assoc, List.rdropWhile_append_rtakeWhile, List.takeWhile_append_dropWhile]
  · exact fun c member => List.mem_takeWhile_imp member
  · exact fun c member => List.mem_rtakeWhile_imp member

/-- `cachesize` takes a number that is a word after scaling, in white space and with any number of
`b`s behind the unit, and nothing else. -/
theorem parseSize_eq_ok {value : List Char} {bytes : Nat} : parseSize value = .ok bytes ↔
    ∃ number scale, SizeText value number scale ∧ number * scale = bytes ∧ bytes < wordLimit := by
  constructor
  · intro parsed
    obtain ⟨front, back, split, before, after⟩ := trim_split value
    unfold parseSize at parsed
    dsimp only at parsed
    have pieces := @List.rdropWhile_append_rtakeWhile _ Char.isAlpha (trim value)
    generalize (trim value).rdropWhile Char.isAlpha = digits at parsed pieces
    have tail : (trim value).drop digits.length = (trim value).rtakeWhile Char.isAlpha := by
      conv => lhs; rw [← pieces]
      exact List.drop_left
    rw [tail] at parsed
    have isLetter : ∀ c ∈ (trim value).rtakeWhile Char.isAlpha, c.isAlpha := fun c member =>
      List.mem_rtakeWhile_imp member
    generalize (trim value).rtakeWhile Char.isAlpha = letters at parsed pieces isLetter
    have units := @List.rdropWhile_append_rtakeWhile _ (· = 'b') (letters.map Char.toLower)
    have isB : ∀ c ∈ (letters.map Char.toLower).rtakeWhile (· = 'b'), c = 'b' := by
      intro c member
      have taken := List.mem_rtakeWhile_imp member
      exact of_decide_eq_true taken
    rw [List.eq_replicate_of_mem isB] at units
    split at parsed
    · cases parsed
    · rename_i scale known
      split at parsed
      · cases parsed
      · rename_i number spelled
        split at parsed
        · cases parsed
        · rename_i product scaled
          cases parsed
          simp only [Arith.checkedMul] at scaled
          split at scaled
          · rename_i fits
            cases scaled
            refine ⟨number, scale, ⟨front, digits, letters, back, _, _, ?_, before, after,
              (parseU64_eq_some.mp spelled).1, isLetter, units.symm, known⟩, rfl, fits⟩
            rw [pieces, ← split]
          · cases scaled
  · intro given
    obtain ⟨number, scale, text, rfl, fits⟩ := given
    obtain ⟨front, digits, letters, back, unit, bs, rfl, before, after, spelled, isLetter, lower,
      known⟩ := text
    have plain : ∀ c ∈ digits ++ letters, ¬ whiteSpace c := by
      intro c member
      cases List.mem_append.mp member with
      | inl isDigit => exact not_whiteSpace_of_decimal spelled c isDigit
      | inr letter =>
        have bounds := bounds_of_isAlpha (isLetter c letter)
        exact not_whiteSpace_of_bounds (by omega) (by omega)
    have digits_ : (digits ++ letters).rdropWhile Char.isAlpha = digits := by
      rw [rdropWhile_append isLetter, rdropWhile_decimal spelled]
    have unit_ : (letters.map Char.toLower).rdropWhile (· = 'b') = unit := by
      rw [lower, rdropWhile_append, rdropWhile_unit known]
      exact fun c member => decide_eq_true (List.eq_of_mem_replicate member)
    have positive : 1 ≤ scale := by
      unfold scaleOf at known
      split at known
      all_goals first
        | (cases known; decide)
        | cases known
    have word : number < wordLimit := Nat.lt_of_le_of_lt (Nat.le_mul_of_pos_right _ positive) fits
    unfold parseSize
    dsimp only
    rw [trim_between before after plain, digits_, List.drop_left, unit_, known,
      parseU64_eq_some.mpr ⟨spelled, word⟩]
    simp only [Arith.checkedMul_of_lt _ fits]

end Sizes

section Lists

/-- The values given to an option among the pieces. -/
def valuesOf (name : String) (pieces : List (List Char)) : List (List Char) :=
  pieces.filterMap (stripPrefix name)

/-- What is left for FUSE. -/
def others (pieces : List (List Char)) : List (List Char) :=
  pieces.filter fun opt =>
    stripPrefix "cachesize=" opt = none ∧ stripPrefix "offset=" opt = none ∧ opt ≠ []

/-- Every piece between commas, in order. -/
def piecesOf (options : List (List Char)) : List (List Char) :=
  options.flatMap (List.splitOn ',')

theorem isPrefixOf?_eq_some {front text rest : List Char} :
    front.isPrefixOf? text = some rest ↔ text = front ++ rest := by
  induction front generalizing text with
  | nil => simp only [List.isPrefixOf?, Option.some.injEq, List.nil_append]
  | cons c front ih =>
    cases text with
    | nil => simp [List.isPrefixOf?]
    | cons d text =>
      simp only [List.isPrefixOf?, List.cons_append, List.cons.injEq, ← ih]
      by_cases same : c = d
      · simp [same]
      · simp [same, Ne.symm same]

theorem splitOptions_eq (options : List (List Char)) :
    splitOptions options =
      (piecesOf options).foldlM splitOption { cache := none, offset := .start, rest := [] } := by
  unfold splitOptions piecesOf
  generalize (SplitOptions.mk none .start []) = state
  induction options generalizing state with
  | nil => rfl
  | cons raw later ih =>
    rw [List.flatMap_cons, List.foldlM_append, List.foldlM_cons]
    exact bind_congr fun state => ih state

variable {opt value : List Char} {pieces : List (List Char)} {state after : SplitOptions}

/-- No piece stands for two options. -/
theorem not_both (cache : stripPrefix "cachesize=" opt = some value) :
    stripPrefix "offset=" opt = none := by
  cases offset : stripPrefix "offset=" opt with
  | none => rfl
  | some other =>
    rw [stripPrefix, isPrefixOf?_eq_some] at cache offset
    rw [cache] at offset
    cases offset

/-- A `cachesize` replaces the one before. -/
theorem splitOption_cache (cache : stripPrefix "cachesize=" opt = some value) :
    splitOption state opt = (parseSize value).map fun bytes => { state with cache := some bytes } := by
  simp only [splitOption, cache]
  cases parseSize value <;> rfl

theorem splitOption_offset (cache : stripPrefix "cachesize=" opt = none)
    (offset : stripPrefix "offset=" opt = some value) :
    splitOption state opt = (parseOffset value).map fun offset => { state with offset } := by
  simp only [splitOption, cache, offset]
  cases parseOffset value <;> rfl

theorem splitOption_other (cache : stripPrefix "cachesize=" opt = none)
    (offset : stripPrefix "offset=" opt = none) :
    splitOption state opt = .ok { state with rest := state.rest ++ others [opt] } := by
  rw [splitOption, cache, offset]
  by_cases empty : opt = []
  · have kept : others [opt] = [] := List.filter_cons_of_neg (by simp [empty])
    rw [kept, List.append_nil, if_pos empty]
  · have kept : others [opt] = [opt] := List.filter_cons_of_pos (by simp [empty, cache, offset])
    rw [kept, if_neg empty]

/-- What the values given to the two options leave of a state. -/
def settled (state : SplitOptions) (sizes : List Nat) (offsets : List Offset)
    (rest : List (List Char)) : SplitOptions where
  cache := sizes.getLast?.or state.cache
  offset := offsets.getLast?.getD state.offset
  rest := state.rest ++ rest

theorem settled_cache (bytes : Nat) (sizes : List Nat) (offsets : List Offset)
    (rest : List (List Char)) :
    settled { state with cache := some bytes } sizes offsets rest =
      settled state (bytes :: sizes) offsets rest := by
  simp only [settled, List.getLast?_cons]
  cases sizes.getLast? <;> rfl

theorem settled_offset (offset : Offset) (sizes : List Nat) (offsets : List Offset)
    (rest : List (List Char)) :
    settled { state with offset } sizes offsets rest =
      settled state sizes (offset :: offsets) rest := by
  simp only [settled, List.getLast?_cons]
  cases offsets.getLast? <;> rfl

/-- The pieces are taken if each value is, and the last of each option stays. -/
def Settles (state : SplitOptions) (pieces : List (List Char)) (after : SplitOptions) : Prop :=
  ∃ sizes offsets,
    List.Forall₂ (fun value bytes => parseSize value = .ok bytes)
      (valuesOf "cachesize=" pieces) sizes ∧
    List.Forall₂ (fun value offset => parseOffset value = .ok offset)
      (valuesOf "offset=" pieces) offsets ∧
    after = settled state sizes offsets (others pieces)

theorem others_cons (opt : List Char) (later : List (List Char)) :
    others (opt :: later) = others [opt] ++ others later := by
  rw [others, others, others, ← List.filter_append, List.singleton_append]

theorem settles_cache {later : List (List Char)}
    (cache : stripPrefix "cachesize=" opt = some value) :
    Settles state (opt :: later) after ↔
      ∃ bytes, parseSize value = .ok bytes ∧ Settles { state with cache := some bytes } later after := by
  have values : valuesOf "cachesize=" (opt :: later) = value :: valuesOf "cachesize=" later :=
    List.filterMap_cons_some cache
  have places : valuesOf "offset=" (opt :: later) = valuesOf "offset=" later :=
    List.filterMap_cons_none (not_both cache)
  have kept : others (opt :: later) = others later := List.filter_cons_of_neg (by simp [cache])
  unfold Settles
  rw [values, places, kept]
  constructor
  · intro given
    obtain ⟨sizes, offsets, sized, placed, rfl⟩ := given
    cases sized with
    | cons parsed sized =>
      exact ⟨_, parsed, _, offsets, sized, placed, (settled_cache ..).symm⟩
  · intro given
    obtain ⟨bytes, parsed, sizes, offsets, sized, placed, rfl⟩ := given
    exact ⟨bytes :: sizes, offsets, .cons parsed sized, placed, settled_cache ..⟩

theorem settles_offset {later : List (List Char)} (cache : stripPrefix "cachesize=" opt = none)
    (offset : stripPrefix "offset=" opt = some value) :
    Settles state (opt :: later) after ↔
      ∃ offset, parseOffset value = .ok offset ∧ Settles { state with offset } later after := by
  have values : valuesOf "cachesize=" (opt :: later) = valuesOf "cachesize=" later :=
    List.filterMap_cons_none cache
  have places : valuesOf "offset=" (opt :: later) = value :: valuesOf "offset=" later :=
    List.filterMap_cons_some offset
  have kept : others (opt :: later) = others later := List.filter_cons_of_neg (by simp [offset])
  unfold Settles
  rw [values, places, kept]
  constructor
  · intro given
    obtain ⟨sizes, offsets, sized, placed, rfl⟩ := given
    cases placed with
    | cons parsed placed =>
      exact ⟨_, parsed, sizes, _, sized, placed, (settled_offset ..).symm⟩
  · intro given
    obtain ⟨place, parsed, sizes, offsets, sized, placed, rfl⟩ := given
    exact ⟨sizes, place :: offsets, sized, .cons parsed placed, settled_offset ..⟩

theorem settles_other {later : List (List Char)} (cache : stripPrefix "cachesize=" opt = none)
    (offset : stripPrefix "offset=" opt = none) :
    Settles state (opt :: later) after ↔
      Settles { state with rest := state.rest ++ others [opt] } later after := by
  have values : valuesOf "cachesize=" (opt :: later) = valuesOf "cachesize=" later :=
    List.filterMap_cons_none cache
  have places : valuesOf "offset=" (opt :: later) = valuesOf "offset=" later :=
    List.filterMap_cons_none offset
  unfold Settles
  rw [values, places, others_cons]
  simp only [settled, List.append_assoc]

theorem foldlM_eq_ok :
    pieces.foldlM splitOption state = .ok after ↔ Settles state pieces after := by
  induction pieces generalizing state with
  | nil =>
    constructor
    · intro same
      cases same
      exact ⟨[], [], .nil, .nil, by rw [settled, show others [] = [] from rfl, List.append_nil]; rfl⟩
    · intro given
      obtain ⟨sizes, offsets, sized, placed, rfl⟩ := given
      cases sized
      cases placed
      rw [settled, show others [] = [] from rfl, List.append_nil]
      rfl
  | cons opt later ih =>
    rw [List.foldlM_cons]
    cases cache : stripPrefix "cachesize=" opt with
    | some value =>
      rw [settles_cache cache, splitOption_cache cache]
      cases parseSize value with
      | error message =>
        exact iff_of_false (fun impossible => nomatch impossible) fun given => (nomatch given)
      | ok bytes =>
        change later.foldlM splitOption { state with cache := some bytes } = .ok after ↔ _
        rw [ih]
        simp
    | none =>
      cases offset : stripPrefix "offset=" opt with
      | some value =>
        rw [settles_offset cache offset, splitOption_offset cache offset]
        cases parseOffset value with
        | error message =>
          exact iff_of_false (fun impossible => nomatch impossible) fun given => (nomatch given)
        | ok place =>
          change later.foldlM splitOption { state with offset := place } = .ok after ↔ _
          rw [ih]
          simp
      | none =>
        rw [settles_other cache offset, splitOption_other cache offset]
        exact ih

end Lists

/-- Joined with commas, the arguments are one argument. -/
theorem splitOn_intercalate_flat {options : List (List Char)} (some_ : options ≠ []) :
    ([','].intercalate options).splitOn ',' = piecesOf options := by
  induction options with
  | nil => exact absurd rfl some_
  | cons raw later ih =>
    cases later with
    | nil => simp [List.intercalate, piecesOf]
    | cons next rest =>
      have joined : [','].intercalate (raw :: next :: rest) =
          raw ++ ',' :: [','].intercalate (next :: rest) := by
        simp [List.intercalate]
      rw [joined, List.splitOn_append_cons_self, ih (List.cons_ne_nil _ _)]
      rfl

theorem piecesOf_joined (options : List (List Char)) :
    (piecesOf options).foldlM splitOption { cache := none, offset := .start, rest := [] } =
      (([','].intercalate options).splitOn ',').foldlM splitOption
        { cache := none, offset := .start, rest := [] } := by
  cases options with
  | nil => rfl
  | cons raw later => rw [splitOn_intercalate_flat (List.cons_ne_nil _ _)]

theorem parseOffset_eq_ok {value : List Char} {offset : Offset} :
    parseOffset value = .ok offset ↔ (value = "auto".toList ∧ offset = .detect) ∨
      ∃ position, offset = .position position ∧ DecimalText value position ∧ position < wordLimit := by
  unfold parseOffset
  by_cases auto : value = "auto".toList
  · rw [if_pos auto]
    constructor
    · intro same
      cases same
      exact Or.inl ⟨auto, rfl⟩
    · intro given
      cases given with
      | inl detect => rw [detect.2]
      | inr found =>
        obtain ⟨position, -, spelled, -⟩ := found
        have plain := rdropWhile_decimal spelled
        rw [auto] at plain
        exact absurd plain (by decide)
  · rw [if_neg auto]
    cases parsed : parseU64 value with
    | none =>
      refine iff_of_false (fun impossible => nomatch impossible) fun given => ?_
      cases given with
      | inl detect => exact auto detect.1
      | inr found =>
        obtain ⟨position, -, spelled, word⟩ := found
        rw [parseU64_eq_some.mpr ⟨spelled, word⟩] at parsed
        cases parsed
    | some position =>
      constructor
      · intro same
        cases same
        exact Or.inr ⟨position, rfl, parseU64_eq_some.mp parsed⟩
      · intro given
        cases given with
        | inl detect => exact absurd detect.1 auto
        | inr found =>
          obtain ⟨other, rfl, spelled, word⟩ := found
          rw [parseU64_eq_some.mpr ⟨spelled, word⟩] at parsed
          cases parsed
          rfl

/-- The `-o` arguments are taken exactly when every `cachesize` is a size and every `offset` is
`auto` or a word; then the last of each counts, what is neither and not empty goes to FUSE in
order, and how the arguments are grouped makes no difference. -/
theorem mount_options :
    (∀ options after, splitOptions options = .ok after ↔
      ∃ sizes offsets,
        List.Forall₂ (fun value bytes => ∃ number scale, SizeText value number scale ∧
          number * scale = bytes ∧ bytes < wordLimit)
          (valuesOf "cachesize=" (piecesOf options)) sizes ∧
        List.Forall₂ (fun value offset => (value = "auto".toList ∧ offset = Offset.detect) ∨
          ∃ position, offset = Offset.position position ∧ DecimalText value position ∧
            position < wordLimit)
          (valuesOf "offset=" (piecesOf options)) offsets ∧
        after = { cache := sizes.getLast?, offset := offsets.getLast?.getD .start,
                  rest := others (piecesOf options) }) ∧
    ∀ options options', [','].intercalate options = [','].intercalate options' →
      splitOptions options = splitOptions options' := by
  constructor
  · intro options after
    rw [splitOptions_eq, foldlM_eq_ok, Settles]
    simp only [parseSize_eq_ok, parseOffset_eq_ok, settled, Option.or_none, List.nil_append]
  · intro options options' same
    rw [splitOptions_eq, splitOptions_eq, piecesOf_joined, piecesOf_joined, same]

/-- As in the source's own test, with the offset in another argument. -/
example : splitOptions ["cachesize=256M,allow_root".toList, "kernel_cache,offset=77".toList] =
    .ok { cache := some (256 <<< 20), offset := .position 77,
          rest := ["allow_root".toList, "kernel_cache".toList] } := by
  decide +kernel

end Rdwarfs.Guarantees.MountOptions
