import Rdwarfs.Lib.Pieces
import Rdwarfs.Source.Fs.Glob
import Mathlib.Data.List.TakeWhile

/-!
# The language of a pattern

A pattern spells tokens: a star, a question mark, a class up to its first closing bracket, or a
byte that stands for itself. It matches the texts that can be divided among its tokens. A class
that is never closed has no token: the matcher panics when it gets there with a byte of the class.
-/
namespace Rdwarfs.Guarantees.GlobLanguage

open Lib.Machine Lib.Pieces Source Source.Fs

section Classes

inductive ClassItem where
  | single (byte : UInt8)
  | range (low high : UInt8)
  deriving DecidableEq, Repr

def ClassItem.Holds : ClassItem → UInt8 → Prop
  | .single byte, c => c = byte
  | .range low high, c => low ≤ c ∧ c ≤ high

/-- The items of a class from left to right; a `-` with a byte on either side makes a range. -/
inductive Items : Bytes → List ClassItem → Prop
  | nil : Items [] []
  | range {low high : UInt8} {rest : Bytes} {items : List ClassItem} (later : Items rest items) :
      Items (low :: 0x2D :: high :: rest) (.range low high :: items)
  | single {byte : UInt8} {rest : Bytes} {items : List ClassItem}
      (alone : ∀ high later, rest ≠ 0x2D :: high :: later) (later : Items rest items) :
      Items (byte :: rest) (.single byte :: items)

/-- The byte is listed in the class or lies in one of its ranges. -/
def InClass (c : UInt8) (body : Bytes) : Prop :=
  ∃ items, Items body items ∧ ∃ item ∈ items, item.Holds c

theorem items_exist (body : Bytes) : ∃ items, Items body items := by
  generalize size : body.length = length
  induction length using Nat.strongRecOn generalizing body with
  | ind length ih =>
    cases body with
    | nil => exact ⟨[], .nil⟩
    | cons byte rest =>
      rw [List.length_cons] at size
      by_cases ranged : ∃ high later, rest = 0x2D :: high :: later
      · obtain ⟨high, later, rfl⟩ := ranged
        simp only [List.length_cons] at size
        obtain ⟨items, known⟩ := ih later.length (by omega) later rfl
        exact ⟨_, .range known⟩
      · obtain ⟨items, known⟩ := ih rest.length (by omega) rest rfl
        exact ⟨_, .single (fun high later same => ranged ⟨high, later, same⟩) known⟩

theorem classMatches_of_items {body : Bytes} {items : List ClassItem} (known : Items body items)
    (c : UInt8) : classMatches c body = true ↔ ∃ item ∈ items, item.Holds c := by
  induction known with
  | nil => simp [classMatches]
  | @range low high rest items _ ih =>
    simp only [classMatches, if_true, Bool.or_eq_true, Bool.and_eq_true, decide_eq_true_eq, ih,
      List.exists_mem_cons_iff, ClassItem.Holds]
  | @single byte rest items alone _ ih =>
    rw [List.exists_mem_cons_iff, ClassItem.Holds, ← ih]
    match rest, alone with
    | [], _ => simp [classMatches]
    | [next], _ => simp [classMatches]
    | dash :: high :: later, alone =>
      have plain : dash ≠ 0x2D := by
        rintro rfl
        exact alone high later rfl
      rw [classMatches, if_neg plain, Bool.or_eq_true, decide_eq_true_eq]

theorem classMatches_iff (c : UInt8) (body : Bytes) :
    classMatches c body = true ↔ InClass c body := by
  constructor
  · intro matched
    obtain ⟨items, known⟩ := items_exist body
    exact ⟨items, known, (classMatches_of_items known c).mp matched⟩
  · rintro ⟨items, known, holds⟩
    exact (classMatches_of_items known c).mpr holds

end Classes

inductive Token where
  | star
  | any
  | oneOf (body : Bytes)
  | byte (b : UInt8)
  deriving DecidableEq, Repr

/-- The pieces of text that a token stands for. -/
def Token.Reads : Token → Bytes → Prop
  | .star, piece => slash ∉ piece
  | .any, piece => ∃ c, piece = [c] ∧ c ≠ slash
  | .oneOf body, piece => ∃ c, piece = [c] ∧ InClass c body
  | .byte b, piece => ∃ c, piece = [c] ∧ c = b

/-- The pattern is the spelling of the tokens. -/
inductive Spelled : Bytes → List Token → Prop
  | nil : Spelled [] []
  | star {rest : Bytes} {tokens : List Token} (later : Spelled rest tokens) :
      Spelled (0x2A :: rest) (.star :: tokens)
  | any {rest : Bytes} {tokens : List Token} (later : Spelled rest tokens) :
      Spelled (0x3F :: rest) (.any :: tokens)
  | oneOf {body rest : Bytes} {tokens : List Token} (open_ : 0x5D ∉ body)
      (later : Spelled rest tokens) :
      Spelled (0x5B :: (body ++ 0x5D :: rest)) (.oneOf body :: tokens)
  | byte {b : UInt8} {rest : Bytes} {tokens : List Token} (notStar : b ≠ 0x2A) (notAny : b ≠ 0x3F)
      (notClass : b ≠ 0x5B) (later : Spelled rest tokens) :
      Spelled (b :: rest) (.byte b :: tokens)

/-- The text can be divided among the tokens that the pattern spells. -/
def Globs (pattern text : Bytes) : Prop :=
  ∃ tokens, Spelled pattern tokens ∧ Divides Token.Reads tokens text

/-- A class that opens behind whole tokens and is never closed. -/
def Unclosed (pattern : Bytes) (tokens : List Token) (body : Bytes) : Prop :=
  ∃ front, Spelled front tokens ∧ pattern = front ++ 0x5B :: body ∧ 0x5D ∉ body

/-- The matcher gets to the class that is not closed, with a byte that is in it. -/
def Crashes (pattern text : Bytes) : Prop :=
  ∃ tokens body, Unclosed pattern tokens body ∧
    Leads Token.Reads tokens (fun rest => ∃ c back, rest = c :: back ∧ InClass c body) text

section Spelling

/-- Every pattern spells tokens to its end, or to a class that is not closed. -/
theorem spelled_or_unclosed (pattern : Bytes) :
    (∃ tokens, Spelled pattern tokens) ∨ ∃ tokens body, Unclosed pattern tokens body := by
  generalize size : pattern.length = length
  induction length using Nat.strongRecOn generalizing pattern with
  | ind length ih =>
    cases pattern with
    | nil => exact Or.inl ⟨[], .nil⟩
    | cons p pattern =>
      rw [List.length_cons] at size
      -- one token in front of whatever the rest spells
      have extend : ∀ (before rest : Bytes) (token : Token), p :: pattern = before ++ rest →
          rest.length < length →
          (∀ {more tokens}, Spelled more tokens → Spelled (before ++ more) (token :: tokens)) →
          (∃ tokens, Spelled (p :: pattern) tokens) ∨
            ∃ tokens body, Unclosed (p :: pattern) tokens body := by
        intro before rest token same short step
        rcases ih rest.length short rest rfl with ⟨tokens, spelled⟩ | ⟨tokens, body, front, spelled,
          rfl, open_⟩
        · exact Or.inl ⟨_, same ▸ step spelled⟩
        · exact Or.inr ⟨_, body, before ++ front, step spelled, by rw [same, List.append_assoc],
            open_⟩
      by_cases star : p = 0x2A
      · exact extend [p] pattern .star rfl (by omega) fun spelled => star ▸ .star spelled
      by_cases any : p = 0x3F
      · exact extend [p] pattern .any rfl (by omega) fun spelled => any ▸ .any spelled
      by_cases bracket : p = 0x5B
      · by_cases closed : 0x5D ∈ pattern
        · obtain ⟨body, rest, rfl, open_⟩ := List.eq_append_cons_of_mem closed
          exact extend (p :: (body ++ [0x5D])) rest (.oneOf body) (by simp) (by simp at size; omega)
            fun spelled => by simpa [bracket] using Spelled.oneOf open_ spelled
        · exact Or.inr ⟨[], pattern, [], .nil, by rw [bracket, List.nil_append], closed⟩
      · exact extend [p] pattern (.byte p) rfl (by omega) fun spelled =>
          .byte star any bracket spelled

end Spelling

section Matcher

/-- What a matcher answers: `stop` on the texts that satisfy `ending`, and no on all others. -/
def Answers (run : Bytes → Result Bool) (ending : Bytes → Prop) (stop : Result Bool) : Prop :=
  ∀ text, (ending text → run text = stop) ∧ (¬ ending text → run text = .ok false)

theorem Answers.congr {run : Bytes → Result Bool} {ending other : Bytes → Prop}
    {stop : Result Bool} (answers : Answers run ending stop)
    (same : ∀ text, ending text ↔ other text) : Answers run other stop := fun text =>
  ⟨fun holds => (answers text).1 ((same text).mpr holds),
    fun fails => (answers text).2 fun holds => fails ((same text).mp holds)⟩

/-- A token that reads one byte. -/
theorem answers_byte {run next : Bytes → Result Bool} {ending : Bytes → Prop} {stop : Result Bool}
    {token : Token} {tokens : List Token} (fits : UInt8 → Prop)
    (reads : ∀ piece, token.Reads piece ↔ ∃ c, piece = [c] ∧ fits c)
    (atEnd : run [] = .ok false) (hit : ∀ c rest, fits c → run (c :: rest) = next rest)
    (miss : ∀ c rest, ¬ fits c → run (c :: rest) = .ok false)
    (answers : Answers next (Leads Token.Reads tokens ending) stop) :
    Answers run (Leads Token.Reads (token :: tokens) ending) stop := by
  have leads : ∀ text, Leads Token.Reads (token :: tokens) ending text ↔
      ∃ c rest, text = c :: rest ∧ fits c ∧ Leads Token.Reads tokens ending rest := by
    intro text
    rw [leads_cons]
    constructor
    · rintro ⟨piece, rest, rfl, here, onward⟩
      obtain ⟨c, rfl, fit⟩ := (reads piece).mp here
      exact ⟨c, rest, rfl, fit, onward⟩
    · rintro ⟨c, rest, rfl, fit, onward⟩
      exact ⟨[c], rest, rfl, (reads [c]).mpr ⟨c, rfl, fit⟩, onward⟩
  intro text
  rw [leads]
  cases text with
  | nil => exact ⟨by simp, fun _ => atEnd⟩
  | cons c rest =>
    by_cases fit : fits c
    · rw [hit c rest fit]
      refine ⟨?_, fun fails => (answers rest).2 fun onward => fails ⟨c, rest, rfl, fit, onward⟩⟩
      rintro ⟨_, _, ⟨⟩, _, onward⟩
      exact (answers rest).1 onward
    · rw [miss c rest fit]
      refine ⟨?_, fun _ => rfl⟩
      rintro ⟨_, _, ⟨⟩, fits_, _⟩
      exact absurd fits_ fit

variable {stop : Result Bool} (stops : stop = .ok true ∨ stop = panicked)

include stops

/-- A star tries every piece up to the next slash, the shortest first. -/
theorem answers_matchStar {go : Bytes → Result Bool} {tokens : List Token} {ending : Bytes → Prop}
    (answers : Answers go (Leads Token.Reads tokens ending) stop) :
    Answers (matchStar go) (Leads Token.Reads (.star :: tokens) ending) stop := by
  intro text
  rw [leads_cons]
  induction text with
  | nil =>
    have here := answers []
    rw [matchStar]
    refine ⟨?_, fun fails => here.2 fun leads => fails ⟨[], [], rfl, by simp [Token.Reads], leads⟩⟩
    rintro ⟨piece, rest, empty, _, leads⟩
    obtain ⟨rfl, rfl⟩ := List.append_eq_nil_iff.mp empty.symm
    exact here.1 leads
  | cons c rest ih =>
    rw [matchStar]
    by_cases here : Leads Token.Reads tokens ending (c :: rest)
    · rw [(answers (c :: rest)).1 here]
      refine ⟨fun _ => ?_, fun fails =>
        absurd ⟨[], c :: rest, rfl, by simp [Token.Reads], here⟩ fails⟩
      rcases stops with rfl | rfl
      · rfl
      · rfl
    · rw [(answers (c :: rest)).2 here, ok_bind, if_neg (by simp)]
      by_cases crosses : c = slash
      · rw [if_pos crosses]
        refine ⟨?_, fun _ => rfl⟩
        rintro ⟨piece, behind, split, reads, leads⟩
        cases piece with
        | nil =>
          rw [List.nil_append] at split
          exact absurd (split ▸ leads) here
        | cons first piece =>
          cases split
          exact absurd (crosses ▸ List.mem_cons_self) reads
      · rw [if_neg crosses]
        refine ⟨?_, ?_⟩
        · rintro ⟨piece, behind, split, reads, leads⟩
          cases piece with
          | nil =>
            rw [List.nil_append] at split
            exact absurd (split ▸ leads) here
          | cons first piece =>
            cases split
            exact ih.1 ⟨piece, behind, rfl, fun member => reads (List.mem_cons_of_mem _ member), leads⟩
        · intro fails
          refine ih.2 ?_
          rintro ⟨piece, behind, rfl, reads, leads⟩
          refine fails ⟨c :: piece, behind, rfl, ?_, leads⟩
          intro member
          rcases List.mem_cons.mp member with same | member
          · exact crosses same.symm
          · exact reads member

omit stops in
/-- A class, open or closed, once its body is split off. -/
theorem globMatch_class {pattern body after : Bytes} (parts : splitClass pattern = (body, after))
    (c : UInt8) (text : Bytes) :
    globMatch (0x5B :: pattern) (c :: text) =
      if classMatches c body then
        match after with
        | [] => panicked
        | _ :: behind => globMatch behind text
      else .ok false := by
  rw [globMatch.eq_def]
  dsimp only
  rw [if_neg (by decide), if_neg (by decide), if_pos rfl]
  simp only [parts]
  by_cases matched : classMatches c body = true
  · rw [if_pos matched, if_pos matched]
    split
    · rename_i open_
      rw [parts] at open_
      cases open_
      rfl
    · rename_i behind closed
      rw [parts] at closed
      cases closed
      rfl
  · rw [if_neg matched, if_neg matched]

/-- In front of a tail that answers, spelled tokens answer for all they lead to. -/
theorem answers_spelled {front tail : Bytes} {tokens : List Token} {ending : Bytes → Prop}
    (spelled : Spelled front tokens) (answers : Answers (globMatch tail) ending stop) :
    Answers (globMatch (front ++ tail)) (Leads Token.Reads tokens ending) stop := by
  induction spelled with
  | nil => exact answers.congr fun text => leads_nil.symm
  | @star rest tokens _ ih =>
    have same : globMatch (0x2A :: rest ++ tail) = matchStar (globMatch (rest ++ tail)) := by
      funext text
      rw [List.cons_append, globMatch.eq_def]
      simp
    rw [same]
    exact answers_matchStar stops ih
  | @any rest tokens _ ih =>
    apply answers_byte (fun c => c ≠ slash) (fun piece => Iff.rfl) _ _ _ ih
    · simp [globMatch]
    · intro c text fit
      simp [globMatch, fit]
    · intro c text miss
      simp [globMatch, not_not.mp miss]
  | @oneOf body rest tokens open_ _ ih =>
    have parts : splitClass (body ++ 0x5D :: (rest ++ tail)) = (body, 0x5D :: (rest ++ tail)) := by
      have inside : ∀ b ∈ body, decide (b ≠ 0x5D) = true := fun b member =>
        decide_eq_true fun same => open_ (same ▸ member)
      rw [splitClass, List.takeWhile_append_of_pos inside, List.dropWhile_append_of_pos inside]
      simp
    have spelling : 0x5B :: (body ++ 0x5D :: rest) ++ tail =
        0x5B :: (body ++ 0x5D :: (rest ++ tail)) := by simp
    rw [spelling]
    apply answers_byte (fun c => InClass c body) (fun piece => Iff.rfl) _ _ _ ih
    · simp [globMatch]
    · intro c text fit
      rw [globMatch_class parts, if_pos ((classMatches_iff c body).mpr fit)]
    · intro c text miss
      rw [globMatch_class parts, if_neg fun matched => miss ((classMatches_iff c body).mp matched)]
  | @byte b rest tokens notStar notAny notClass _ ih =>
    apply answers_byte (fun c => c = b) (fun piece => Iff.rfl) _ _ _ ih
    · simp [globMatch, notStar]
    · intro c text fit
      simp [globMatch, notStar, notAny, notClass, fit]
    · intro c text miss
      simp [globMatch, notStar, notAny, notClass, miss]

end Matcher

section Patterns

variable {pattern text : Bytes}

theorem answers_end : Answers (globMatch []) (· = []) (.ok true) := by
  intro text
  cases text <;> simp [globMatch]

/-- Behind the bracket of a class that is not closed there is nothing to go on with. -/
theorem answers_unclosed {body : Bytes} (open_ : 0x5D ∉ body) :
    Answers (globMatch (0x5B :: body)) (fun rest => ∃ c back, rest = c :: back ∧ InClass c body)
      panicked := by
  have parts : splitClass body = (body, []) := by
    have inside : ∀ b ∈ body, decide (b ≠ 0x5D) = true := fun b member =>
      decide_eq_true fun same => open_ (same ▸ member)
    rw [splitClass, List.takeWhile_eq_self_iff.mpr inside, List.dropWhile_eq_nil_iff.mpr inside]
  intro text
  cases text with
  | nil => simp [globMatch]
  | cons c rest =>
    rw [globMatch_class parts]
    by_cases matched : classMatches c body = true
    · rw [if_pos matched]
      have inside := (classMatches_iff c body).mp matched
      exact ⟨fun _ => rfl, fun outside => absurd ⟨c, rest, rfl, inside⟩ outside⟩
    · rw [if_neg matched]
      refine ⟨?_, fun _ => rfl⟩
      rintro ⟨_, _, ⟨⟩, inside⟩
      exact absurd ((classMatches_iff c body).mpr inside) matched

theorem answers_of_spelled {tokens : List Token} (spelled : Spelled pattern tokens) :
    Answers (globMatch pattern) (Divides Token.Reads tokens) (.ok true) := by
  have answers := answers_spelled (Or.inl rfl) spelled answers_end
  rw [List.append_nil] at answers
  exact answers.congr fun text => leads_end

theorem answers_of_unclosed {tokens : List Token} {body : Bytes}
    (unclosed : Unclosed pattern tokens body) :
    Answers (globMatch pattern) (Leads Token.Reads tokens fun rest =>
      ∃ c back, rest = c :: back ∧ InClass c body) panicked := by
  obtain ⟨front, spelled, rfl, open_⟩ := unclosed
  exact answers_spelled (Or.inr rfl) spelled (answers_unclosed open_)

theorem globMatch_eq_true : globMatch pattern text = .ok true ↔ Globs pattern text := by
  constructor
  · intro matched
    rcases spelled_or_unclosed pattern with ⟨tokens, spelled⟩ | ⟨tokens, body, unclosed⟩
    · have answers := answers_of_spelled spelled text
      by_cases divides : Divides Token.Reads tokens text
      · exact ⟨tokens, spelled, divides⟩
      · rw [answers.2 divides] at matched
        cases matched
    · have answers := answers_of_unclosed unclosed text
      by_cases leads : Leads Token.Reads tokens (fun rest =>
          ∃ c back, rest = c :: back ∧ InClass c body) text
      · rw [answers.1 leads] at matched
        cases matched
      · rw [answers.2 leads] at matched
        cases matched
  · rintro ⟨tokens, spelled, divides⟩
    exact (answers_of_spelled spelled text).1 divides

theorem globMatch_eq_panicked : globMatch pattern text = panicked ↔ Crashes pattern text := by
  constructor
  · intro stuck
    rcases spelled_or_unclosed pattern with ⟨tokens, spelled⟩ | ⟨tokens, body, unclosed⟩
    · have answers := answers_of_spelled spelled text
      by_cases divides : Divides Token.Reads tokens text
      · rw [answers.1 divides] at stuck
        cases stuck
      · rw [answers.2 divides] at stuck
        cases stuck
    · refine ⟨tokens, body, unclosed, Classical.byContradiction fun fails => ?_⟩
      rw [(answers_of_unclosed unclosed text).2 fails] at stuck
      cases stuck
  · rintro ⟨tokens, body, unclosed, leads⟩
    exact (answers_of_unclosed unclosed text).1 leads

/-- The matcher has no error of its own. -/
theorem globMatch_returned :
    (∃ found, globMatch pattern text = .ok found) ∨ globMatch pattern text = panicked := by
  rcases spelled_or_unclosed pattern with ⟨tokens, spelled⟩ | ⟨tokens, body, unclosed⟩
  · have answers := answers_of_spelled spelled text
    by_cases divides : Divides Token.Reads tokens text
    · exact Or.inl ⟨_, answers.1 divides⟩
    · exact Or.inl ⟨_, answers.2 divides⟩
  · have answers := answers_of_unclosed unclosed text
    by_cases leads : Leads Token.Reads tokens (fun rest =>
        ∃ c back, rest = c :: back ∧ InClass c body) text
    · exact Or.inr (answers.1 leads)
    · exact Or.inl ⟨_, answers.2 leads⟩

/-- A pattern whose classes are closed spells tokens, and matches what can be divided among them. -/
theorem glob_language
    (closed : ∀ front body tokens, Spelled front tokens → pattern = front ++ 0x5B :: body →
      0x5D ∈ body) :
    ∃ tokens, Spelled pattern tokens ∧ ∀ text, ∃ found, globMatch pattern text = .ok found ∧
      (found = true ↔ Divides Token.Reads tokens text) := by
  rcases spelled_or_unclosed pattern with ⟨tokens, spelled⟩ | ⟨tokens, body, front, spelled, same,
    open_⟩
  · refine ⟨tokens, spelled, fun text => ?_⟩
    have answers := answers_of_spelled spelled text
    by_cases divides : Divides Token.Reads tokens text
    · exact ⟨true, answers.1 divides, by simpa using divides⟩
    · exact ⟨false, answers.2 divides, by simpa using divides⟩
  · exact absurd (closed front body tokens spelled same) open_

/-- The pattern `*[]`, with a class that is empty. -/
theorem glob_language_empty_class :
    ∃ tokens, Spelled [0x2A, 0x5B, 0x5D] tokens ∧ ∀ text, ∃ found,
      globMatch [0x2A, 0x5B, 0x5D] text = .ok found ∧
        (found = true ↔ Divides Token.Reads tokens text) := by
  refine glob_language fun front body tokens _ same => ?_
  rcases front with _ | ⟨_, _ | ⟨_, _ | ⟨_, front⟩⟩⟩
  · cases same
  · cases same
    exact List.mem_singleton_self _
  · cases same
  · simp at same

/-- A call returns unless it gets to a class without an end. -/
theorem glob_returns_iff (pattern text : Bytes) :
    (∃ found, globMatch pattern text = .ok found) ↔ ¬ Crashes pattern text := by
  rw [← globMatch_eq_panicked]
  rcases @globMatch_returned pattern text with ⟨found, returned⟩ | stuck
  · simp [returned]
  · simp [stuck]

/-- The pattern `[a` and the text `a`. -/
theorem open_class_crashes :
    ¬ ∀ pattern text : Bytes, ∃ found, globMatch pattern text = .ok found := by
  intro claimed
  obtain ⟨found, returned⟩ := claimed [0x5B, 0x61] [0x61]
  have stuck : globMatch [0x5B, 0x61] [0x61] = panicked :=
    (answers_unclosed (by decide) [0x61]).1
      ⟨0x61, [], rfl, (classMatches_iff _ _).mp (by decide)⟩
  rw [stuck] at returned
  cases returned

end Patterns

end Rdwarfs.Guarantees.GlobLanguage
