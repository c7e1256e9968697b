import Mathlib.Tactic.Common

/-!
# Loops that write into a table

A loop visits items, and each item may update one row of a table. What a row holds
afterwards depends only on the items that update it: none of them, or items that all
write the same thing.
-/
namespace Rdwarfs.Lib.Writes

variable {α β : Type}

/-- Update row `target item` with `put item`. -/
def writeOne (target : β → Option Nat) (put : β → α → α) (table : List α) (item : β) : List α :=
  match target item with
  | some row => table.modify row (put item)
  | none => table

/-- Visit `items`, each with its update. -/
def writeAll (target : β → Option Nat) (put : β → α → α) (items : List β) (table : List α) :
    List α :=
  items.foldl (writeOne target put) table

variable {target : β → Option Nat} {put : β → α → α} {items : List β} {table : List α} {row : Nat}

theorem writeAll_cons (item : β) :
    writeAll target put (item :: items) table =
      writeAll target put items (writeOne target put table item) := rfl

@[simp] theorem writeAll_length : (writeAll target put items table).length = table.length := by
  induction items generalizing table with
  | nil => rfl
  | cons item items ih =>
    rw [writeAll_cons, ih, writeOne]
    cases target item <;> simp

/-- A row that no item targets keeps its value. -/
theorem writeAll_untouched (untouched : ∀ item ∈ items, target item ≠ some row) :
    (writeAll target put items table)[row]? = table[row]? := by
  induction items generalizing table with
  | nil => rfl
  | cons item items ih =>
    rw [writeAll_cons, ih fun other member => untouched other (by simp [member]), writeOne]
    cases here : target item with
    | none => rfl
    | some written =>
      have other : written ≠ row := fun same => untouched item (by simp) (same ▸ here)
      simp [other]

/-- A row whose writers all write `value` over what they find, and settle it. -/
theorem writeAll_agreed {write : α → α}
    (alike : ∀ item ∈ items, target item = some row → put item = write)
    (settles : ∀ value, write (write value) = write value)
    (written : ∃ item ∈ items, target item = some row) :
    (writeAll target put items table)[row]? = table[row]?.map write := by
  induction items generalizing table with
  | nil => simp at written
  | cons first items ih =>
    have rest := fun item member => alike item (List.mem_cons_of_mem first member)
    rw [writeAll_cons, writeOne]
    by_cases later : ∃ item ∈ items, target item = some row
    · rw [ih rest later]
      cases here : target first with
      | none => rfl
      | some hit =>
        by_cases same : hit = row
        · subst same
          rw [alike first (by simp) here, List.getElem?_modify_eq, Option.map_eq_map,
            Option.map_map]
          exact congrArg (Option.map · _) (funext settles)
        · simp [same]
    · have here : target first = some row := by
        obtain ⟨item, member, hits⟩ := written
        rcases List.mem_cons.mp member with rfl | member
        · exact hits
        · exact absurd ⟨item, member, hits⟩ later
      rw [writeAll_untouched fun item member hits => later ⟨item, member, hits⟩, here,
        alike first (by simp) here]
      simp

end Rdwarfs.Lib.Writes
