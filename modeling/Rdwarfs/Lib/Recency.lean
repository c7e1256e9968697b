import Mathlib.Data.List.Dedup
import Mathlib.Data.List.Perm.Subperm

/-!
# Queues in order of last use

A log of uses, the latest last, orders the things used by their last use: keep the last
occurrence of each, which is what `List.dedup` does. A queue that is a sublist of that is in
order of last use, and is then determined by which things it lists.
-/
namespace Rdwarfs.Lib.Recency

variable {α : Type} [DecidableEq α] {order shorter uses : List α} {a : α}

/-- One more use moves what is used to the end. -/
theorem dedup_concat (uses : List α) (a : α) :
    (uses ++ [a]).dedup = uses.dedup.erase a ++ [a] := by
  induction uses with
  | nil => simp
  | cons b rest ih =>
    by_cases again : b ∈ rest
    · rw [List.cons_append, List.dedup_cons_of_mem (by simp [again]), ih,
        List.dedup_cons_of_mem again]
    · by_cases same : b = a
      · subst same
        have absent : b ∉ rest.dedup := by simpa using again
        rw [List.cons_append, List.dedup_cons_of_mem (by simp), ih,
          List.dedup_cons_of_notMem again, List.erase_cons_head, List.erase_of_not_mem absent]
      · rw [List.cons_append, List.dedup_cons_of_notMem (by simp [again, same]), ih,
          List.dedup_cons_of_notMem again, List.erase_cons_tail (by simpa using same),
          List.cons_append]

/-- In order of last use: what is listed was used, and later places were used later. -/
def Recent (uses order : List α) : Prop := order.Sublist uses.dedup

theorem recent_nil (uses : List α) : Recent uses [] := List.nil_sublist _

theorem Recent.nodup (recent : Recent uses order) : order.Nodup :=
  (List.nodup_dedup uses).sublist recent

theorem Recent.sublist (recent : Recent uses order) (sub : shorter.Sublist order) :
    Recent uses shorter := sub.trans recent

/-- A use of `a` may move it to the end, or put it there. -/
theorem Recent.use (recent : Recent uses order) (a : α) :
    Recent (uses ++ [a]) (order.erase a ++ [a]) := by
  unfold Recent
  rw [dedup_concat]
  exact (recent.erase a).append (List.Sublist.refl _)

/-- A use of something that is not listed leaves the queue in order. -/
theorem Recent.use_unlisted (recent : Recent uses order) (unlisted : a ∉ order) :
    Recent (uses ++ [a]) order := by
  have sub : order.Sublist (order.erase a ++ [a]) := by
    rw [List.erase_of_not_mem unlisted]
    exact List.sublist_append_left _ _
  exact (recent.use a).sublist sub

/-- The queue is the log with what it does not list left out. -/
theorem Recent.eq_filter (recent : Recent uses order) (listed : α → Bool)
    (lists : ∀ a, a ∈ order ↔ listed a = true) : order = uses.dedup.filter listed := by
  have nodup := List.nodup_dedup uses
  unfold Recent at recent
  generalize uses.dedup = used at recent nodup
  have all : ∀ a ∈ order, listed a = true := fun a member => (lists a).mp member
  have kept := recent.filter listed
  rw [List.filter_eq_self.mpr all] at kept
  apply kept.eq_of_length_le
  apply List.Subperm.length_le
  apply List.subperm_of_subset (nodup.filter listed)
  intro a member
  exact (lists a).mpr (List.mem_filter.mp member).2

end Rdwarfs.Lib.Recency
