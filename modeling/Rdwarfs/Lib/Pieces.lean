import Mathlib.Tactic.Common

/-!
# Texts divided among tokens

A token reads some pieces of text. A list of tokens reads a text that can be cut into pieces, one
for each token in order; it leads to a property of what comes behind such a text.
-/
namespace Rdwarfs.Lib.Pieces

variable {τ α : Type} {reads : τ → List α → Prop}

/-- The text is divided among the tokens in order. -/
inductive Divides (reads : τ → List α → Prop) : List τ → List α → Prop
  | nil : Divides reads [] []
  | cons {token : τ} {tokens : List τ} {piece rest : List α} (here : reads token piece)
      (onward : Divides reads tokens rest) : Divides reads (token :: tokens) (piece ++ rest)

theorem divides_nil {text : List α} : Divides reads [] text ↔ text = [] := by
  constructor
  · rintro ⟨⟩
    rfl
  · rintro rfl
    exact .nil

theorem divides_cons {token : τ} {tokens : List τ} {text : List α} :
    Divides reads (token :: tokens) text ↔
      ∃ piece rest, text = piece ++ rest ∧ reads token piece ∧ Divides reads tokens rest := by
  constructor
  · rintro (_ | ⟨here, onward⟩)
    exact ⟨_, _, rfl, here, onward⟩
  · rintro ⟨piece, rest, rfl, here, onward⟩
    exact .cons here onward

/-- Behind a front that the tokens read, `ending` holds. -/
def Leads (reads : τ → List α → Prop) (tokens : List τ) (ending : List α → Prop) (text : List α) :
    Prop :=
  ∃ front back, text = front ++ back ∧ Divides reads tokens front ∧ ending back

theorem leads_nil {ending : List α → Prop} {text : List α} :
    Leads reads [] ending text ↔ ending text := by
  constructor
  · rintro ⟨front, back, rfl, divides, holds⟩
    rw [divides_nil.mp divides]
    exact holds
  · intro holds
    exact ⟨[], text, rfl, .nil, holds⟩

/-- One token after the other. -/
theorem leads_cons {token : τ} {tokens : List τ} {ending : List α → Prop} {text : List α} :
    Leads reads (token :: tokens) ending text ↔
      ∃ piece rest, text = piece ++ rest ∧ reads token piece ∧ Leads reads tokens ending rest := by
  constructor
  · rintro ⟨front, back, rfl, divides, holds⟩
    obtain ⟨piece, rest, rfl, here, onward⟩ := divides_cons.mp divides
    exact ⟨piece, rest ++ back, List.append_assoc .., here, rest, back, rfl, onward, holds⟩
  · rintro ⟨piece, _, rfl, here, front, back, rfl, onward, holds⟩
    exact ⟨piece ++ front, back, (List.append_assoc ..).symm, .cons here onward, holds⟩

/-- To lead to the end is to read the whole text. -/
theorem leads_end {tokens : List τ} {text : List α} :
    Leads reads tokens (· = []) text ↔ Divides reads tokens text := by
  constructor
  · rintro ⟨front, _, rfl, divides, rfl⟩
    rwa [List.append_nil]
  · intro divides
    exact ⟨text, [], (List.append_nil text).symm, divides, rfl⟩

end Rdwarfs.Lib.Pieces
