import Rdwarfs.Lib.Oracle

/-!
# Programs by the questions they ask

What a program never asks about cannot change its outcome: an oracle may be swapped for another
that agrees on the questions asked, and what holds of the answers to those holds of every run.
-/
namespace Rdwarfs.Lib.Oracle.Prog

open Machine

variable {Q A S ε α β : Type}

/-- Whatever it is answered, the program asks only questions that satisfy `p`. -/
inductive Asks (p : Q → Prop) : Prog Q A ε α → Prop
  | done (result : Res ε α) : Asks p (.done result)
  | ask {question : Q} {next : A → Prog Q A ε α} (here : p question)
      (onward : ∀ answer, Asks p (next answer)) : Asks p (.ask question next)

section Compose

variable {p : Q → Prop}

theorem asks_lift (result : Res ε α) : Asks p (lift result : Prog Q A ε α) := .done result

theorem asks_anything (program : Prog Q A ε α) : Asks (fun _ => True) program := by
  induction program with
  | done result => exact .done result
  | ask question next ih => exact .ask trivial ih

theorem asks_bind {program : Prog Q A ε α} {rest : α → Prog Q A ε β} (first : Asks p program)
    (onward : ∀ value, Asks p (rest value)) : Asks p (program >>= rest) := by
  induction first with
  | done result =>
    cases result with
    | ok value => exact onward value
    | error failure => exact .done _
  | ask here _ ih => exact .ask here ih

/-- The second part need only be known for what the first can return. -/
theorem asks_lift_bind {result : Res ε α} {rest : α → Prog Q A ε β}
    (onward : ∀ value, result = .ok value → Asks p (rest value)) :
    Asks p (lift result >>= rest) := by
  cases result with
  | ok value => exact onward value rfl
  | error failure => exact .done _

end Compose

section Swap

variable {p : Q → Prop}

/-- A run under one specification is a run under any other that permits the answers given. -/
theorem Asks.yields {permits permits' : Q → Res ε A → Prop} {program : Prog Q A ε α}
    {result : Res ε α} (asks : Asks p program)
    (allows : ∀ question answer, p question → permits question answer → permits' question answer)
    (yields : Yields permits program result) : Yields permits' program result := by
  induction yields with
  | done result => exact .done result
  | @answer question next value result permitted _ ih =>
    cases asks with
    | ask here onward => exact .answer (allows _ _ here permitted) (ih (onward value))
  | failure permitted =>
    cases asks with
    | ask here _ => exact .failure (allows _ _ here permitted)

end Swap

end Rdwarfs.Lib.Oracle.Prog
