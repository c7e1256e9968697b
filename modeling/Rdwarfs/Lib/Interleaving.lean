import Rdwarfs.Lib.Oracle
import Mathlib.Logic.Relation

/-!
# Programs in a world, alone and together

A world says which answers a question may get in a state, and what state that leaves.
Several programs share a world by taking turns, one question at a time. Where each question
touches only what belongs to its own program, no schedule can be told from each program
running alone; and since a program is a finite tree of questions, no schedule runs for ever.
-/
namespace Rdwarfs.Lib.Interleaving

open Machine Oracle

variable {Q A S V ε φ α β : Type}

/-- `world before question answer after` -/
abbrev World (Q A S : Type) := S → Q → A → S → Prop

/-- Both ways a program returns, as a value to go on with; a panic stays one. -/
def attempted : Prog Q A ε α → Prog Q A φ (Except ε α)
  | .done result => .done (attempt result)
  | .ask question next => .ask question fun answer => attempted (next answer)

inductive Runs (world : World Q A S) : Prog Q A ε α → S → Res ε α → S → Prop
  | done (result : Res ε α) (state : S) : Runs world (.done result) state result state
  | ask {question : Q} {next : A → Prog Q A ε α} {answer : A} {before between after : S}
      {result : Res ε α} (answers : world before question answer between)
      (rest : Runs world (next answer) between result after) :
      Runs world (.ask question next) before result after

section Alone

variable {world : World Q A S} {before after : S}

theorem runs_done {result other : Res ε α} :
    Runs world (.done result : Prog Q A ε α) before other after ↔ other = result ∧ after = before := by
  constructor
  · rintro ⟨⟩
    exact ⟨rfl, rfl⟩
  · rintro ⟨rfl, rfl⟩
    exact .done ..

theorem runs_ask {question : Q} {next : A → Prog Q A ε α} {result : Res ε α} :
    Runs world (.ask question next) before result after ↔
      ∃ answer between, world before question answer between ∧
        Runs world (next answer) between result after := by
  constructor
  · intro runs
    cases runs with
    | ask answers rest => exact ⟨_, _, answers, rest⟩
  · rintro ⟨_, _, answers, rest⟩
    exact .ask answers rest

/-- A run of two programs in a row is a run of the first and, if it returns, of the second. -/
theorem runs_bind {program : Prog Q A ε α} {next : α → Prog Q A ε β} {result : Res ε β} :
    Runs world (program >>= next) before result after ↔
      (∃ value between, Runs world program before (.ok value) between ∧
        Runs world (next value) between result after) ∨
      ∃ failure, Runs world program before (.error failure) after ∧ result = .error failure := by
  induction program generalizing before with
  | done outcome =>
    cases outcome with
    | ok value => simp [runs_done]
    | error failure =>
      change Runs world (.done (.error failure)) before result after ↔ _
      simp [runs_done, and_comm]
  | ask question rest ih =>
    change Runs world (.ask question fun answer => (rest answer).bind next) before result after ↔ _
    have onward := fun answer between => @ih answer between
    constructor
    · intro runs
      obtain ⟨answer, between, answers, runs⟩ := runs_ask.mp runs
      rcases (onward answer between).mp runs with ⟨value, later, first, second⟩ | ⟨failure, first, same⟩
      · exact Or.inl ⟨value, later, .ask answers first, second⟩
      · exact Or.inr ⟨failure, .ask answers first, same⟩
    · rintro (⟨value, later, first, second⟩ | ⟨failure, first, same⟩)
      · obtain ⟨answer, between, answers, first⟩ := runs_ask.mp first
        exact .ask answers ((onward answer between).mpr (Or.inl ⟨value, later, first, second⟩))
      · obtain ⟨answer, between, answers, first⟩ := runs_ask.mp first
        exact .ask answers ((onward answer between).mpr (Or.inr ⟨failure, first, same⟩))

/-- What asks nothing leaves the state as it is. -/
theorem runs_lift_bind {run : Res ε α} {next : α → Prog Q A ε β} {result : Res ε β} :
    Runs world (Prog.lift run >>= next) before result after ↔
      (∃ value, run = .ok value ∧ Runs world (next value) before result after) ∨
      ∃ failure, run = .error failure ∧ result = .error failure ∧ after = before := by
  cases run with
  | ok value => simp
  | error failure => simp [runs_done]

theorem runs_attempted {program : Prog Q A ε α} {result : Res φ (Except ε α)} :
    Runs world (attempted program : Prog Q A φ (Except ε α)) before result after ↔
      ∃ outcome, Runs world program before outcome after ∧ result = attempt outcome := by
  induction program generalizing before with
  | done outcome => simp [attempted, runs_done, and_comm, and_assoc]
  | ask question rest ih =>
    constructor
    · intro runs
      obtain ⟨answer, between, answers, runs⟩ := runs_ask.mp runs
      obtain ⟨outcome, ran, same⟩ := (ih answer).mp runs
      exact ⟨outcome, .ask answers ran, same⟩
    · rintro ⟨outcome, ran, same⟩
      obtain ⟨answer, between, answers, ran⟩ := runs_ask.mp ran
      exact .ask answers ((ih answer).mpr ⟨outcome, ran, same⟩)

/-- What a handler that answers as the world may runs, the world runs. -/
theorem runs_of_run {handler : Q → S → Option (Res ε A × S)}
    (answers : ∀ question before given after, handler question before = some (given, after) →
      ∃ answer, given = .ok answer ∧ world before question answer after)
    {program : Prog Q A ε α} {result : Res ε α}
    (ran : program.run handler before = some (result, after)) :
    Runs world program before result after := by
  induction program generalizing before with
  | done result =>
    cases ran
    exact .done ..
  | ask question next ih =>
    rw [Prog.run] at ran
    cases handled : handler question before with
    | none => simp [handled] at ran
    | some given =>
      obtain ⟨given, between⟩ := given
      obtain ⟨answer, rfl, allowed⟩ := answers _ _ _ _ handled
      simp only [handled] at ran
      exact .ask allowed (ih answer ran)

end Alone

/-- Every question a program can come to satisfies `may`. -/
inductive Asks (may : Q → Prop) : Prog Q A ε α → Prop
  | done (result : Res ε α) : Asks may (.done result)
  | ask {question : Q} {next : A → Prog Q A ε α} (here : may question)
      (later : ∀ answer, Asks may (next answer)) : Asks may (.ask question next)

theorem Asks.mono {may might : Q → Prop} {program : Prog Q A ε α} (asks : Asks may program)
    (weaker : ∀ question, may question → might question) : Asks might program := by
  induction asks with
  | done result => exact .done result
  | ask here _ ih => exact .ask (weaker _ here) ih

theorem asks_bind {may : Q → Prop} {program : Prog Q A ε α} {next : α → Prog Q A ε β}
    (first : Asks may program) (second : ∀ value, Asks may (next value)) :
    Asks may (program >>= next) := by
  induction first with
  | done result =>
    cases result with
    | ok value => exact second value
    | error failure => exact .done _
  | ask here _ ih => exact .ask here ih

/-- The programs and the state between two turns. -/
structure Turns (Q A S ε α : Type) where
  programs : List (Prog Q A ε α)
  state : S

/-- One program asks one question. -/
inductive Turn (world : World Q A S) : Turns Q A S ε α → Turns Q A S ε α → Prop
  | ask {turns : Turns Q A S ε α} {i : Nat} {question : Q} {next : A → Prog Q A ε α} {answer : A}
      {after : S} (here : turns.programs[i]? = some (.ask question next))
      (answers : world turns.state question answer after) :
      Turn world turns ⟨turns.programs.set i (next answer), after⟩

/-- The programs take turns until all have returned. -/
def Interleaves (world : World Q A S) (programs : List (Prog Q A ε α)) (before : S)
    (results : List (Res ε α)) (after : S) : Prop :=
  Relation.ReflTransGen (Turn world) ⟨programs, before⟩ ⟨results.map .done, after⟩

/-- Induction over a schedule: it is over, or one program asks and a schedule is left. -/
@[elab_as_elim]
theorem interleaves_induction {world : World Q A S} {results : List (Res ε α)} {after : S}
    {motive : ∀ programs before, Interleaves world programs before results after → Prop}
    (ended : motive (results.map .done) after .refl)
    (turn : ∀ {i : Nat} {programs : List (Prog Q A ε α)} {before between : S} {question : Q}
      {next : A → Prog Q A ε α} {answer : A} (here : programs[i]? = some (.ask question next))
      (answers : world before question answer between)
      (later : Interleaves world (programs.set i (next answer)) between results after),
      motive _ _ later → motive programs before (.head (.ask here answers) later))
    {programs : List (Prog Q A ε α)} {before : S}
    (ran : Interleaves world programs before results after) : motive programs before ran := by
  have reached : ∀ turns : Turns Q A S ε α,
      ∀ ran : Relation.ReflTransGen (Turn world) turns ⟨results.map .done, after⟩,
        motive turns.programs turns.state ran := by
    intro turns ran
    induction ran using Relation.ReflTransGen.head_induction_on with
    | refl => exact ended
    | head step later ih =>
      cases step with
      | ask here answers => exact turn here answers later ih
  exact reached ⟨programs, before⟩ ran

section Separation

variable {world : World Q A S} {own : Nat → Q → Prop}

/-- Program `j` asks only what is its own. -/
def AskOwn (own : Nat → Q → Prop) (programs : List (Prog Q A ε α)) : Prop :=
  ∀ j program, programs[j]? = some program → Asks (own j) program

theorem askOwn_set {programs : List (Prog Q A ε α)} (asks : AskOwn own programs) {j : Nat}
    {program : Prog Q A ε α} (may : Asks (own j) program) : AskOwn own (programs.set j program) := by
  intro k other known
  by_cases same : k = j
  · subst same
    have inside : k < programs.length := by
      have bound := (List.getElem?_eq_some_iff.mp known).1
      rwa [List.length_set] at bound
    rw [List.getElem?_set_self inside] at known
    cases known
    exact may
  · rw [List.getElem?_set_ne (Ne.symm same)] at known
    exact asks k other known

/-- All that the programs may ask keeps what holds of the state. -/
theorem interleaves_keeps {invariant : S → Prop}
    (keeps : ∀ j before question answer after, own j question →
      world before question answer after → invariant before → invariant after)
    {programs : List (Prog Q A ε α)} {before after : S} {results : List (Res ε α)}
    (asks : AskOwn own programs) (ran : Interleaves world programs before results after)
    (holds : invariant before) : invariant after := by
  induction ran using interleaves_induction with
  | ended => exact holds
  | @turn j _ _ _ _ _ answer here answers _ ih =>
    cases asks j _ here with
    | ask may later =>
      exact ih (askOwn_set asks (later answer)) (keeps j _ _ _ _ may answers holds)

/-- Program `i` has a part of the state to itself: what it asks is answered as the part alone
would answer, and what the others ask leaves the part as it is. -/
structure Separate (world : World Q A S) (alone : World Q A V) (view : S → V)
    (own : Nat → Q → Prop) (i : Nat) : Prop where
  mine : ∀ before question answer after, own i question →
    world before question answer after → alone (view before) question answer (view after)
  others : ∀ j before question answer after, j ≠ i → own j question →
    world before question answer after → view after = view before

/-- To a program with a part of its own, every schedule is a run alone. -/
theorem Separate.runs {alone : World Q A V} {view : S → V} {i : Nat}
    (separate : Separate world alone view own i) {programs : List (Prog Q A ε α)} {before after : S}
    {results : List (Res ε α)} (asks : AskOwn own programs)
    (ran : Interleaves world programs before results after) {program : Prog Q A ε α}
    (known : programs[i]? = some program) :
    ∃ result, results[i]? = some result ∧ Runs alone program (view before) result (view after) := by
  induction ran using interleaves_induction generalizing program with
  | ended =>
    rw [List.getElem?_map] at known
    obtain ⟨result, here, rfl⟩ := Option.map_eq_some_iff.mp known
    exact ⟨result, here, .done ..⟩
  | @turn j _ _ _ _ _ answer here answers _ ih =>
    cases asks j _ here with
    | ask may later =>
      have asks := askOwn_set asks (later answer)
      by_cases same : j = i
      · subst same
        have inside := (List.getElem?_eq_some_iff.mp here).1
        rw [here] at known
        cases known
        obtain ⟨result, found, runs⟩ := ih asks (List.getElem?_set_self inside)
        exact ⟨result, found, .ask (separate.mine _ _ _ _ may answers) runs⟩
      · obtain ⟨result, found, runs⟩ := ih asks ((List.getElem?_set_ne same).trans known)
        rw [separate.others j _ _ _ _ same may answers] at runs
        exact ⟨result, found, runs⟩

end Separation

section Endings

variable {world : World Q A S}

/-- A program that nothing takes turns with. -/
theorem interleaves_single {program : Prog Q A ε α} {before after : S} {result : Res ε α}
    (ran : Runs world program before result after) :
    Interleaves world [program] before [result] after := by
  induction ran with
  | done result state => exact .refl
  | @ask question next answer before between after result answers _ ih =>
    have turn : Turn world ⟨[.ask question next], before⟩ ⟨[next answer], between⟩ :=
      .ask (i := 0) rfl answers
    exact .head turn ih

theorem interleaves_length {programs : List (Prog Q A ε α)} {before after : S}
    {results : List (Res ε α)} (ran : Interleaves world programs before results after) :
    results.length = programs.length := by
  induction ran using interleaves_induction with
  | ended => rw [List.length_map]
  | turn _ _ _ ih => rw [ih, List.length_set]

end Endings

end Rdwarfs.Lib.Interleaving
