import Mathlib.Data.List.Basic

/-!
# Lists in which what leads comes first

`leads p x` says that `p` has to come before `x`. In a list that obeys this every element
finds its leaders among the elements before it, or among those seen earlier still.
-/
namespace Rdwarfs.Lib.Precedence

variable {α β : Type} {leads : α → α → Prop} {seen more : α → Prop} {xs ys : List α}

def LedFrom (leads : α → α → Prop) : (α → Prop) → List α → Prop
  | _, [] => True
  | seen, x :: rest => (∀ p, leads p x → seen p) ∧ LedFrom leads (fun p => seen p ∨ p = x) rest

theorem LedFrom.mono (led : LedFrom leads seen xs) (wider : ∀ p, seen p → more p) :
    LedFrom leads more xs := by
  induction xs generalizing seen more with
  | nil => trivial
  | cons x rest ih =>
    obtain ⟨here, onward⟩ := led
    exact ⟨fun p leader => wider p (here p leader), ih onward fun p => Or.imp_left (wider p)⟩

theorem LedFrom.append (first : LedFrom leads seen xs)
    (second : LedFrom leads (fun p => seen p ∨ p ∈ xs) ys) : LedFrom leads seen (xs ++ ys) := by
  induction xs generalizing seen with
  | nil => exact second.mono (by simp)
  | cons x rest ih =>
    obtain ⟨here, onward⟩ := first
    refine ⟨here, ih onward (second.mono fun p => ?_)⟩
    simp only [List.mem_cons]
    tauto

/-- Moved along `f`, a list stays in order if every leader of an image is an image of a
leader, or was seen. -/
theorem LedFrom.map {other : β → β → Prop} {seenThere : β → Prop} {f : α → β}
    (led : LedFrom leads seen xs) (known : ∀ p, seen p → seenThere (f p))
    (lifts : ∀ q x, x ∈ xs → other q (f x) → seenThere q ∨ ∃ p, leads p x ∧ q = f p) :
    LedFrom other seenThere (xs.map f) := by
  induction xs generalizing seen seenThere with
  | nil => trivial
  | cons x rest ih =>
    obtain ⟨here, onward⟩ := led
    refine ⟨fun q leader => ?_, ih onward ?_ ?_⟩
    · rcases lifts q x (by simp) leader with old | ⟨p, below, rfl⟩
      · exact old
      · exact known p (here p below)
    · rintro p (old | rfl)
      · exact Or.inl (known p old)
      · exact Or.inr rfl
    · intro q y member leader
      exact (lifts q y (by simp [member]) leader).imp_left Or.inl

/-- Read off the list: a leader stands before whatever it leads. -/
theorem LedFrom.before (led : LedFrom leads seen xs) {before after : List α} {x p : α}
    (split : xs = before ++ x :: after) (leader : leads p x) : seen p ∨ p ∈ before := by
  induction before generalizing xs seen with
  | nil =>
    subst split
    exact Or.inl (led.1 p leader)
  | cons y before ih =>
    subst split
    rcases ih led.2 rfl with (old | rfl) | found
    · exact Or.inl old
    · exact Or.inr (by simp)
    · exact Or.inr (by simp [found])

end Rdwarfs.Lib.Precedence
