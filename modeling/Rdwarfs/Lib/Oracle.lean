import Rdwarfs.Lib.Machine

/-!
# Programs that ask an oracle

A program computes on its own and now and then asks a question whose answer comes
from outside: a cache, another thread, a device. `Yields` runs it against every
answer a specification permits; `run` runs it against a stateful handler. A
program whose outcome does not depend on which permitted answer it is given
cannot tell two handlers apart, whatever state they are in.
-/
namespace Rdwarfs.Lib.Oracle

open Machine

inductive Prog (Q A ε α : Type) where
  | done (result : Res ε α)
  | ask (question : Q) (next : A → Prog Q A ε α)

namespace Prog

variable {Q A S ε α β : Type}

def bind : Prog Q A ε α → (α → Prog Q A ε β) → Prog Q A ε β
  | .done (.ok value), rest => rest value
  | .done (.error failure), _ => .done (.error failure)
  | .ask question next, rest => .ask question fun answer => (next answer).bind rest

instance : Monad (Prog Q A ε) where
  pure value := .done (.ok value)
  bind := Prog.bind

/-- A computation that asks nothing. -/
def lift (result : Res ε α) : Prog Q A ε α := .done result

def question (q : Q) : Prog Q A ε A := .ask q fun answer => .done (.ok answer)

@[simp] theorem pure_def (value : α) : (pure value : Prog Q A ε α) = .done (.ok value) := rfl

@[simp] theorem lift_ok_bind (value : α) (rest : α → Prog Q A ε β) :
    ((lift (.ok value) : Prog Q A ε α) >>= rest) = rest value := rfl

@[simp] theorem lift_error_bind (failure : Failure ε) (rest : α → Prog Q A ε β) :
    ((lift (.error failure) : Prog Q A ε α) >>= rest) = .done (.error failure) := rfl

@[simp] theorem done_ok_bind (value : α) (rest : α → Prog Q A ε β) :
    ((.done (.ok value) : Prog Q A ε α) >>= rest) = rest value := rfl

@[simp] theorem question_bind (q : Q) (rest : A → Prog Q A ε β) :
    (question q >>= rest) = .ask q rest := rfl

/-- Outcomes of a program when every question may be given any permitted answer;
an answer that is a failure ends the program. -/
inductive Yields (permits : Q → Res ε A → Prop) : Prog Q A ε α → Res ε α → Prop
  | done (result : Res ε α) : Yields permits (.done result) result
  | answer {question : Q} {next : A → Prog Q A ε α} {value : A} {result : Res ε α}
      (permitted : permits question (.ok value)) (rest : Yields permits (next value) result) :
      Yields permits (.ask question next) result
  | failure {question : Q} {next : A → Prog Q A ε α} {failure : Failure ε}
      (permitted : permits question (.error failure)) :
      Yields permits (.ask question next) (.error failure)

/-- A run of two programs in a row is a run of the first and, if it returns, of the second. -/
theorem yields_bind {permits : Q → Res ε A → Prop} {program : Prog Q A ε α}
    {rest : α → Prog Q A ε β} {result : Res ε β} (yields : Yields permits (program >>= rest) result) :
    (∃ value, Yields permits program (.ok value) ∧ Yields permits (rest value) result) ∨
      ∃ failure, Yields permits program (.error failure) ∧ result = .error failure := by
  induction program with
  | done outcome =>
    cases outcome with
    | ok value => exact Or.inl ⟨value, .done _, yields⟩
    | error failure =>
      cases yields
      exact Or.inr ⟨failure, .done _, rfl⟩
  | ask query next ih =>
    cases yields with
    | @answer _ _ value _ permitted onward =>
      rcases ih value onward with ⟨returned, first, second⟩ | ⟨failure, first, same⟩
      · exact Or.inl ⟨returned, .answer permitted first, second⟩
      · exact Or.inr ⟨failure, .answer permitted first, same⟩
    | failure permitted => exact Or.inr ⟨_, .failure permitted, rfl⟩

/-- Every permitted run ends in the same outcome. -/
def Determined (permits : Q → Res ε A → Prop) (program : Prog Q A ε α) (result : Res ε α) : Prop :=
  ∀ other, Yields permits program other → other = result

theorem determined_done (permits : Q → Res ε A → Prop) (result : Res ε α) :
    Determined permits (.done result) result := by
  rintro other ⟨⟩
  rfl

theorem determined_ask {permits : Q → Res ε A → Prop} {q : Q} {next : A → Prog Q A ε α}
    {result : Res ε α} (values : ∀ value, permits q (.ok value) → Determined permits (next value) result)
    (failures : ∀ failure, permits q (.error failure) → result = .error failure) :
    Determined permits (.ask q next) result := by
  intro other yields
  cases yields with
  | answer permitted rest => exact values _ permitted other rest
  | failure permitted => exact (failures _ permitted).symm

/-- A determined program may be replaced by its outcome. -/
theorem determined_bind {permits : Q → Res ε A → Prop} {program : Prog Q A ε α}
    {rest : α → Prog Q A ε β} {first : Res ε α} {result : Res ε β}
    (one : Determined permits program first)
    (ok : ∀ value, first = .ok value → Determined permits (rest value) result)
    (error : ∀ failure, first = .error failure → result = .error failure) :
    Determined permits (program >>= rest) result := by
  induction program with
  | done outcome =>
    have same := one outcome (.done outcome)
    cases outcome with
    | error failure =>
      rw [error failure same.symm]
      exact determined_done _ _
    | ok value => exact ok value same.symm
  | ask query next ih =>
    refine determined_ask (fun value permitted => ?_) fun failure permitted => ?_
    · exact ih value fun other yields => one other (.answer permitted yields)
    · exact error failure (one (.error failure) (.failure permitted)).symm

/-- What a permitted run returns, `spec` returns; a run that fails is not looked at. -/
def Follows (permits : Q → Res ε A → Prop) (program : Prog Q A ε α) (spec : Res ε α) : Prop :=
  ∀ value, Yields permits program (.ok value) → spec = .ok value

theorem follows_lift (permits : Q → Res ε A → Prop) (result : Res ε α) :
    Follows permits (lift result) result := by
  rintro value ⟨⟩
  rfl

theorem follows_ask {permits : Q → Res ε A → Prop} {q : Q} {next : A → Prog Q A ε α}
    {spec : Res ε α} (onward : ∀ answer, permits q (.ok answer) → Follows permits (next answer) spec) :
    Follows permits (.ask q next) spec := by
  intro value yields
  cases yields with
  | answer permitted rest => exact onward _ permitted value rest

theorem follows_bind {permits : Q → Res ε A → Prop} {program : Prog Q A ε α} {run : Res ε α}
    {next : α → Prog Q A ε β} {spec : α → Res ε β} (first : Follows permits program run)
    (rest : ∀ value, run = .ok value → Follows permits (next value) (spec value)) :
    Follows permits (program >>= next) (run >>= spec) := by
  intro result yields
  rcases yields_bind yields with ⟨value, returned, onward⟩ | ⟨failure, _, absurd_⟩
  · rw [first value returned, ok_bind]
    exact rest value (first value returned) result onward
  · cases absurd_

/-- Run against a handler that owns a state. A handler answers `none` where it
would wait for ever. -/
def run (handler : Q → S → Option (Res ε A × S)) : Prog Q A ε α → S → Option (Res ε α × S)
  | .done result, state => some (result, state)
  | .ask q next, state =>
    match handler q state with
    | none => none
    | some (.error failure, state) => some (.error failure, state)
    | some (.ok value, state) => run handler (next value) state

/-- Where the first program returns, the second goes on from there. -/
theorem run_bind_ok {handler : Q → S → Option (Res ε A × S)} {program : Prog Q A ε α}
    {next : α → Prog Q A ε β} {before after : S} {value : α}
    (ran : run handler program before = some (.ok value, after)) :
    run handler (program >>= next) before = run handler (next value) after := by
  induction program generalizing before with
  | done result =>
    cases ran
    rfl
  | ask q rest ih =>
    change run handler (.ask q fun answer => (rest answer).bind next) before = _
    rw [run] at ran ⊢
    cases handled : handler q before with
    | none => simp [handled] at ran
    | some answered =>
      obtain ⟨answer, state⟩ := answered
      cases answer with
      | error failure => simp [handled] at ran
      | ok given =>
        simp only [handled] at ran
        exact ih given ran

/-- A handler that keeps an invariant and, in it, always gives a permitted answer
runs every program to one of its permitted outcomes. -/
theorem run_yields {handler : Q → S → Option (Res ε A × S)} {permits : Q → Res ε A → Prop}
    {invariant : S → Prop}
    (serves : ∀ q state, invariant state →
      ∃ answer after, handler q state = some (answer, after) ∧ permits q answer ∧ invariant after)
    (program : Prog Q A ε α) (state : S) (holds : invariant state) :
    ∃ result after, run handler program state = some (result, after) ∧
      Yields permits program result ∧ invariant after := by
  induction program generalizing state with
  | done result => exact ⟨result, state, rfl, .done result, holds⟩
  | ask q next ih =>
    obtain ⟨answer, after, handled, permitted, kept⟩ := serves q state holds
    cases answer with
    | error failure => exact ⟨.error failure, after, by simp [run, handled], .failure permitted, kept⟩
    | ok value =>
      obtain ⟨result, final, ran, yields, invariantFinal⟩ := ih value after kept
      exact ⟨result, final, by simp [run, handled, ran], .answer permitted yields, invariantFinal⟩

/-- A determined program returns its outcome from every state of such a handler. -/
theorem run_determined {handler : Q → S → Option (Res ε A × S)} {permits : Q → Res ε A → Prop}
    {invariant : S → Prop}
    (serves : ∀ q state, invariant state →
      ∃ answer after, handler q state = some (answer, after) ∧ permits q answer ∧ invariant after)
    {program : Prog Q A ε α} {result : Res ε α} (determined : Determined permits program result)
    (state : S) (holds : invariant state) :
    ∃ after, run handler program state = some (result, after) ∧ invariant after := by
  obtain ⟨outcome, after, ran, yields, kept⟩ := run_yields serves program state holds
  exact ⟨after, determined outcome yields ▸ ran, kept⟩

end Prog

end Rdwarfs.Lib.Oracle
