import Rdwarfs.Lib.Machine

/-!
# Iterators

An iterator is a state and a `next` that may hand out an item. `Drains` says which items
come out before the first `none`, and that from there on nothing comes out at all.
-/
namespace Rdwarfs.Lib.Iteration

open Machine

variable {ε ι α : Type} {next : ι → Res ε (Option α × ι)}

/-- What the first `count` calls of `next` hand out. -/
def polls (next : ι → Res ε (Option α × ι)) : Nat → ι → Res ε (List (Option α))
  | 0, _ => .ok []
  | count + 1, state => do
    let (found, after) ← next state
    let later ← polls next count after
    .ok (found :: later)

inductive Drains (next : ι → Res ε (Option α × ι)) : ι → List α → Prop
  | spent {state : ι} (ended : next state = .ok (none, state)) : Drains next state []
  | found {state after : ι} {item : α} {items : List α}
      (stepped : next state = .ok (some item, after)) (rest : Drains next after items) :
      Drains next state (item :: items)

/-- The items in order, then `none` for as long as anyone asks. -/
theorem Drains.polls {state : ι} {items : List α} (drains : Drains next state items)
    (count : Nat) :
    Iteration.polls next count state =
      .ok ((items.map some ++ List.replicate count none).take count) := by
  induction count generalizing state items with
  | zero => simp [Iteration.polls]
  | succ count ih =>
    cases drains with
    | spent ended =>
      simp only [Iteration.polls, ended, ok_bind, ih (.spent ended)]
      simp [List.replicate_succ]
    | @found _ after item items stepped rest =>
      simp only [Iteration.polls, stepped, ok_bind, ih rest, List.map_cons, List.cons_append,
        List.take_succ_cons]
      congr 2
      simp only [List.take_append, List.take_replicate]
      congr 2
      omega

theorem Drains.unique {state : ι} {items others : List α} (drains : Drains next state items)
    (other : Drains next state others) : items = others := by
  induction drains generalizing others with
  | spent ended =>
    cases other with
    | spent => rfl
    | found stepped => simp [ended] at stepped
  | found stepped rest ih =>
    cases other with
    | spent ended => simp [stepped] at ended
    | found again rest' =>
      obtain ⟨rfl, rfl⟩ : _ ∧ _ := by simpa [stepped] using again
      rw [ih rest']

end Rdwarfs.Lib.Iteration
