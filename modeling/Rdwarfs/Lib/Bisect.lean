import Rdwarfs.Lib.Machine

/-!
# Binary search

A search between two positions of a sequence that can only be probed. The probe says how the
element compares with what is sought and may fail. Where the elements before a match compare
below and those after it above, the search finds the match; where nothing matches, it finds
nothing, in whatever order the elements stand.
-/
namespace Rdwarfs.Lib.Bisect

open Machine

variable {ε β : Type}

def find (probe : Nat → Res ε (Ordering × β)) (lo hi : Nat) : Res ε (Option β) :=
  if lo < hi then do
    let mid := lo + (hi - lo) / 2
    let (order, found) ← probe mid
    match order with
    | .lt => find probe (mid + 1) hi
    | .gt => find probe lo mid
    | .eq => .ok (some found)
  else .ok none
termination_by hi - lo

variable {probe : Nat → Res ε (Ordering × β)} {order : Nat → Ordering} {value : Nat → β}
  {lo hi : Nat}

theorem find_empty (empty : hi ≤ lo) : find probe lo hi = .ok none := by
  rw [find, if_neg (Nat.not_lt.mpr empty)]

/-- One probe, of the element in the middle. -/
theorem find_step {mid : Nat} (inside : lo < hi) (middle : lo + (hi - lo) / 2 = mid)
    (probed : probe mid = .ok (order mid, value mid)) :
    find probe lo hi =
      match order mid with
      | .lt => find probe (mid + 1) hi
      | .gt => find probe lo mid
      | .eq => .ok (some (value mid)) := by
  rw [find, if_pos inside]
  simp only [middle, probed, ok_bind]

theorem find_hit (probed : ∀ i, lo ≤ i → i < hi → probe i = .ok (order i, value i)) {i : Nat}
    (from_ : lo ≤ i) (till : i < hi) (here : order i = .eq)
    (before : ∀ j, lo ≤ j → j < i → order j = .lt) (after : ∀ j, i < j → j < hi → order j = .gt) :
    find probe lo hi = .ok (some (value i)) := by
  obtain ⟨size, measure⟩ : ∃ size, hi - lo = size := ⟨_, rfl⟩
  induction size using Nat.strongRecOn generalizing lo hi with
  | ind size ih =>
    have inside : lo < hi := by omega
    obtain ⟨mid, middle⟩ : ∃ mid, lo + (hi - lo) / 2 = mid := ⟨_, rfl⟩
    rw [find_step inside middle (probed mid (by omega) (by omega))]
    rcases Nat.lt_trichotomy mid i with below | same | above
    · rw [before mid (by omega) below]
      exact ih (hi - (mid + 1)) (by omega) (fun j low high => probed j (by omega) high)
        below till (fun j low high => before j (by omega) high) after rfl
    · rw [same, here]
    · rw [after mid above (by omega)]
      exact ih (mid - lo) (by omega) (fun j low high => probed j low (by omega))
        from_ above before (fun j low high => after j low (by omega)) rfl

theorem find_miss (probed : ∀ i, lo ≤ i → i < hi → probe i = .ok (order i, value i))
    (absent : ∀ i, lo ≤ i → i < hi → order i ≠ .eq) : find probe lo hi = .ok none := by
  obtain ⟨size, measure⟩ : ∃ size, hi - lo = size := ⟨_, rfl⟩
  induction size using Nat.strongRecOn generalizing lo hi with
  | ind size ih =>
    by_cases inside : lo < hi
    · obtain ⟨mid, middle⟩ : ∃ mid, lo + (hi - lo) / 2 = mid := ⟨_, rfl⟩
      rw [find_step inside middle (probed mid (by omega) (by omega))]
      cases at_ : order mid with
      | lt =>
        exact ih (hi - (mid + 1)) (by omega) (fun j low high => probed j (by omega) high)
          (fun j low high => absent j (by omega) high) rfl
      | eq => exact absurd at_ (absent mid (by omega) (by omega))
      | gt =>
        exact ih (mid - lo) (by omega) (fun j low high => probed j low (by omega))
          (fun j low high => absent j low (by omega)) rfl
    · exact find_empty (Nat.not_lt.mp inside)

/-- The search probes between its ends only. -/
theorem find_ne_panicked (settled : ∀ i, lo ≤ i → i < hi → probe i ≠ panicked) :
    find probe lo hi ≠ panicked := by
  obtain ⟨size, measure⟩ : ∃ size, hi - lo = size := ⟨_, rfl⟩
  induction size using Nat.strongRecOn generalizing lo hi with
  | ind size ih =>
    rw [find]
    by_cases inside : lo < hi
    · rw [if_pos inside]
      intro stuck
      rcases bind_eq_panicked.mp stuck with probed | ⟨⟨order, found⟩, _, onward⟩
      · exact settled _ (by omega) (by omega) probed
      · cases order with
        | lt => exact ih _ (by omega) (fun i low high => settled i (by omega) high) rfl onward
        | eq => cases onward
        | gt => exact ih _ (by omega) (fun i low high => settled i low (by omega)) rfl onward
    · rw [if_neg inside]
      simp

end Rdwarfs.Lib.Bisect
