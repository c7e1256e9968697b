/-!
# A fallible operation on every item

In order, up to the first item that fails; or by a pool of threads that stops as soon as it may.
-/
namespace Rdwarfs.Lib.TryForEach

variable {α φ : Type}

/-- What a pool may return: success if no item fails, else the failure of some item. Which one is
left open where there are several. -/
structure TriesEach (one : α → Except φ Unit) (items : List α) (result : Except φ Unit) : Prop where
  passed : result = .ok () → ∀ item ∈ items, one item = .ok ()
  failed : ∀ failure, result = .error failure → ∃ item ∈ items, one item = .error failure

theorem TriesEach.ok_iff {one : α → Except φ Unit} {items : List α} {result : Except φ Unit}
    (tries : TriesEach one items result) :
    result = .ok () ↔ ∀ item ∈ items, one item = .ok () := by
  refine ⟨tries.passed, fun all => ?_⟩
  cases ended : result with
  | ok done => rfl
  | error failure =>
    obtain ⟨item, member, fails⟩ := tries.failed failure ended
    rw [all item member] at fails
    cases fails

section OneThread

variable {one : α → Except φ Unit} {items : List α}

/-- One thread stops at the first item that fails. -/
theorem forM_ok_iff : forM items one = .ok () ↔ ∀ item ∈ items, one item = .ok () := by
  induction items with
  | nil => simp [List.forM_nil, pure, Except.pure]
  | cons item after ih =>
    rw [List.forM_cons, List.forall_mem_cons, ← ih]
    cases one item with
    | ok done => exact (and_iff_right rfl).symm
    | error failure => exact ⟨fun passed => (nomatch passed), fun both => (nomatch both.1)⟩

theorem forM_error_iff {failure : φ} :
    forM items one = .error failure ↔ ∃ before item after, items = before ++ item :: after ∧
      (∀ other ∈ before, one other = .ok ()) ∧ one item = .error failure := by
  induction items with
  | nil =>
    constructor
    · intro failed
      cases failed
    · intro given
      obtain ⟨before, item, after, split, -⟩ := given
      cases before <;> cases split
  | cons first rest ih =>
    rw [List.forM_cons]
    cases judged : one first with
    | error earlier =>
      constructor
      · intro failed
        cases failed
        exact ⟨[], first, rest, rfl, fun _ member => (nomatch member), judged⟩
      · intro given
        obtain ⟨before, item, after, split, passed, fails⟩ := given
        cases before with
        | nil =>
          cases split
          rw [judged] at fails
          cases fails
          rfl
        | cons other before =>
          cases split
          have passes := passed first (List.mem_cons_self ..)
          rw [judged] at passes
          cases passes
    | ok done =>
      change forM rest one = .error failure ↔ _
      rw [ih]
      constructor
      · intro given
        obtain ⟨before, item, after, split, passed, fails⟩ := given
        refine ⟨first :: before, item, after, by rw [split, List.cons_append], ?_, fails⟩
        exact List.forall_mem_cons.mpr ⟨judged, passed⟩
      · intro given
        obtain ⟨before, item, after, split, passed, fails⟩ := given
        cases before with
        | nil =>
          cases split
          rw [judged] at fails
          cases fails
        | cons other before =>
          cases split
          exact ⟨before, item, after, rfl, (List.forall_mem_cons.mp passed).2, fails⟩

/-- One thread is a pool of its own. -/
theorem triesEach_forM : TriesEach one items (forM items one) where
  passed := forM_ok_iff.mp
  failed := by
    intro failure failed
    obtain ⟨before, item, after, split, -, fails⟩ := forM_error_iff.mp failed
    exact ⟨item, split ▸ List.mem_append_cons_self, fails⟩

end OneThread

end Rdwarfs.Lib.TryForEach
