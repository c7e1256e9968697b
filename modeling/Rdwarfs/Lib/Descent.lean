import Mathlib.Logic.Relation
import Mathlib.Order.WellFounded
import Mathlib.Data.Fintype.Order
import Mathlib.Data.Finite.Defs

/-!
# Descending relations on finite types

A recursion that only follows a relation ends when the relation cannot be
followed for ever. On a finite type that fails in one way: some point that can be
reached lies on a cycle.
-/
namespace Rdwarfs.Lib.Descent

variable {α : Type*} {step : α → α → Prop}

/-- A point that is its own descendant has an endless descent. -/
theorem not_acc_of_cycle {a : α} (cycle : Relation.TransGen step a a) : ¬ Acc (flip step) a := by
  intro acc
  have closure : Acc (Relation.TransGen (flip step)) a := acc.transGen
  induction closure with
  | intro a _ ih => exact ih a (Relation.transGen_swap.mpr cycle) cycle acc

theorem acc_of_reaches {a b : α} (acc : Acc (flip step) a)
    (reaches : Relation.ReflTransGen step a b) : Acc (flip step) b := by
  induction reaches with
  | refl => exact acc
  | tail _ last ih => exact ih.inv last

/-- On a finite type every descent from `start` ends exactly when no point reached
from it is its own descendant. -/
theorem acc_iff_no_cycle [Finite α] (start : α) :
    Acc (flip step) start ↔
      ¬ ∃ a, Relation.ReflTransGen step start a ∧ Relation.TransGen step a a := by
  constructor
  · rintro acc ⟨a, reaches, cycle⟩
    exact not_acc_of_cycle cycle (acc_of_reaches acc reaches)
  · intro noCycle
    let Reached := { a : α // Relation.ReflTransGen step start a }
    let below : Reached → Reached → Prop := fun b a => Relation.TransGen step a.1 b.1
    have trans : IsTrans Reached below := ⟨fun _ _ _ ba cb => cb.trans ba⟩
    have irrefl : Std.Irrefl below := ⟨fun a cycle => noCycle ⟨a.1, a.2, cycle⟩⟩
    have wf : WellFounded below := Finite.wellFounded_of_trans_of_irrefl below
    have lower : ∀ a : Reached, Acc (flip step) a.1 := by
      intro a
      induction a using wf.induction with
      | h a ih =>
        exact ⟨a.1, fun b hb => ih ⟨b, a.2.tail hb⟩ (Relation.TransGen.single hb)⟩
    exact lower ⟨start, .refl⟩

end Rdwarfs.Lib.Descent
