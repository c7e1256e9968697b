import Rdwarfs.Lib.Machine
import Mathlib.Order.Basic

/-!
# Scanning for a first hit

A scanner visits positions in order, remembers the first complaint it meets and
returns the first position it accepts. The same scan may be driven by different
loops (one over the whole input, one over overlapping windows of it); what a loop
computes is determined by the verdict it reaches at each position.
-/
namespace Rdwarfs.Lib.Scan

open Machine

inductive Verdict (ε : Type) where
  | pass
  | hit
  | note (complaint : ε)
  | stop (failure : Failure ε)

namespace Verdict

variable {ε : Type}

/-- The scan goes on to the next position. -/
def Quiet : Verdict ε → Prop
  | .pass => True
  | .note _ => True
  | .hit => False
  | .stop _ => False

@[simp] theorem quiet_pass : (pass : Verdict ε).Quiet := trivial
@[simp] theorem quiet_note (complaint : ε) : (note complaint).Quiet := trivial
@[simp] theorem not_quiet_hit : ¬ (hit : Verdict ε).Quiet := id
@[simp] theorem not_quiet_stop (failure : Failure ε) : ¬ (stop failure).Quiet := id

end Verdict

open Verdict

section Scan

variable {ε : Type} (judge : Nat → Verdict ε) (otherwise : ε)

/-- Visit `count` positions from `position` on. -/
def scan : (count position : Nat) → Option ε → Res ε Nat
  | 0, _, noted => fail (noted.getD otherwise)
  | count + 1, position, noted =>
    match judge position with
    | .pass => scan count (position + 1) noted
    | .hit => .ok position
    | .note complaint => scan count (position + 1) (some (noted.getD complaint))
    | .stop failure => .error failure

variable {judge} {otherwise}

/-- Positions that pass may be jumped over. -/
theorem scan_skip {count position : Nat} {noted : Option ε} (skipped : Nat) (le : skipped ≤ count)
    (passes : ∀ i, i < skipped → judge (position + i) = .pass) :
    scan judge otherwise count position noted =
      scan judge otherwise (count - skipped) (position + skipped) noted := by
  induction skipped generalizing count position with
  | zero => simp
  | succ skipped ih =>
    obtain ⟨count, rfl⟩ : ∃ rest, count = rest + 1 := ⟨count - 1, by omega⟩
    have here := passes 0 (by omega)
    rw [scan, show judge position = .pass from here]
    have later := @ih count (position + 1) (by omega) fun i lt => by
      have next := passes (i + 1) (by omega)
      rwa [show position + (i + 1) = position + 1 + i by omega] at next
    simp only [later]
    congr 1 <;> omega

/-- A scan whose positions all pass reports what it remembered. -/
theorem scan_pass {count position : Nat} {noted : Option ε}
    (passes : ∀ i, i < count → judge (position + i) = .pass) :
    scan judge otherwise count position noted = fail (noted.getD otherwise) := by
  rw [scan_skip count (Nat.le_refl _) passes, Nat.sub_self, scan]

/-- What is remembered is kept through to the end. -/
theorem scan_noted {count position : Nat} {complaint : ε}
    (quiet : ∀ i, position ≤ i → i < position + count → (judge i).Quiet) :
    scan judge otherwise count position (some complaint) = fail complaint := by
  induction count generalizing position with
  | zero => rfl
  | succ count ih =>
    have rest := ih fun i le lt => quiet i (Nat.le_of_succ_le le) (by omega)
    have here := quiet position (Nat.le_refl _) (by omega)
    rw [scan]
    cases verdict : judge position with
    | pass => exact rest
    | note other => exact rest
    | hit => simp [verdict] at here
    | stop failure => simp [verdict] at here

/-- With no hit and no stop, the first complaint is the answer. -/
theorem scan_first_note {count position at_ : Nat} {complaint : ε} (lt : at_ < count)
    (passes : ∀ i, i < at_ → judge (position + i) = .pass)
    (noted : judge (position + at_) = .note complaint)
    (quiet : ∀ i, position ≤ i → i < position + count → (judge i).Quiet) :
    scan judge otherwise count position none = fail complaint := by
  obtain ⟨rest, more⟩ : ∃ rest, count - at_ = rest + 1 := ⟨count - at_ - 1, by omega⟩
  rw [scan_skip at_ (Nat.le_of_lt lt) passes, more, scan, noted]
  exact scan_noted fun i le below => quiet i (by omega) (by omega)

/-- The first position that stops the scan decides it. -/
theorem scan_stop {count position : Nat} {noted : Option ε} {at_ : Nat} {failure : Failure ε}
    (le : position ≤ at_) (lt : at_ < position + count) (stops : judge at_ = .stop failure)
    (before : ∀ i, position ≤ i → i < at_ → (judge i).Quiet) :
    scan judge otherwise count position noted = .error failure := by
  induction count generalizing position noted with
  | zero => omega
  | succ count ih =>
    rw [scan]
    rcases Nat.eq_or_lt_of_le le with rfl | further
    · rw [stops]
    · have quiet := before position (Nat.le_refl _) further
      have rest : ∀ noted, scan judge otherwise count (position + 1) noted = .error failure :=
        fun noted => ih further (by omega) fun i hi => before i (by omega)
      cases verdict : judge position with
      | pass => exact rest noted
      | note complaint => exact rest _
      | hit => simp [verdict] at quiet
      | stop other => simp [verdict] at quiet

theorem scan_eq_ok {count position : Nat} {noted : Option ε} {found : Nat} :
    scan judge otherwise count position noted = .ok found ↔
      position ≤ found ∧ found < position + count ∧ judge found = .hit ∧
        ∀ i, position ≤ i → i < found → (judge i).Quiet := by
  induction count generalizing position noted with
  | zero =>
    simp only [scan, reduceCtorEq, Nat.add_zero, false_iff]
    omega
  | succ count ih =>
    have onward : ∀ noted, (judge position).Quiet →
        (scan judge otherwise count (position + 1) noted = .ok found ↔
          position ≤ found ∧ found < position + (count + 1) ∧ judge found = .hit ∧
            ∀ i, position ≤ i → i < found → (judge i).Quiet) := by
      intro noted quiet
      rw [ih]
      constructor
      · rintro ⟨le, lt, isHit, before⟩
        refine ⟨by omega, by omega, isHit, fun i hi hlt => ?_⟩
        rcases Nat.eq_or_lt_of_le hi with rfl | further
        · exact quiet
        · exact before i further hlt
      · rintro ⟨le, lt, isHit, before⟩
        have ne : position ≠ found := by
          rintro rfl
          simp [isHit] at quiet
        exact ⟨by omega, by omega, isHit, fun i hi => before i (by omega)⟩
    rw [scan]
    cases verdict : judge position with
    | pass => exact onward noted (by simp [verdict])
    | note complaint => exact onward _ (by simp [verdict])
    | hit =>
      simp only [Except.ok.injEq]
      constructor
      · rintro rfl
        exact ⟨Nat.le_refl _, by omega, verdict, fun i hi hlt => absurd hlt (Nat.not_lt.mpr hi)⟩
      · rintro ⟨le, -, -, before⟩
        rcases Nat.eq_or_lt_of_le le with same | further
        · exact same
        · simpa [verdict] using before position (Nat.le_refl _) further
    | stop failure =>
      simp only [reduceCtorEq, false_iff]
      rintro ⟨le, -, isHit, before⟩
      rcases Nat.eq_or_lt_of_le le with rfl | further
      · simp [verdict] at isHit
      · simpa [verdict] using before position (Nat.le_refl _) further

/-- Verdicts after the first hit do not matter. -/
theorem scan_congr {other : Nat → Verdict ε} {count position : Nat} {noted : Option ε}
    (same : ∀ i, position ≤ i → i < position + count →
      (∀ j, position ≤ j → j < i → judge j ≠ .hit) → judge i = other i) :
    scan judge otherwise count position noted = scan other otherwise count position noted := by
  induction count generalizing position noted with
  | zero => rfl
  | succ count ih =>
    have here := same position (Nat.le_refl _) (by omega) fun j hj hlt => by omega
    rw [scan, scan, ← here]
    have onward : judge position ≠ .hit → ∀ noted,
        scan judge otherwise count (position + 1) noted =
          scan other otherwise count (position + 1) noted := by
      intro miss noted
      refine ih fun i hi hlt before => same i (by omega) (by omega) fun j hj hlt' => ?_
      rcases Nat.eq_or_lt_of_le hj with rfl | further
      · exact miss
      · exact before j further hlt'
    cases verdict : judge position with
    | pass => exact onward (by simp [verdict]) noted
    | note complaint => exact onward (by simp [verdict]) _
    | hit => rfl
    | stop failure => rfl

variable (judge) (otherwise) in
/-- Every outcome of a scan: a hit, the complaint remembered, or a stop. -/
theorem scan_cases (count position : Nat) (noted : Option ε) :
    (∃ found, scan judge otherwise count position noted = .ok found) ∨
    (∃ complaint, scan judge otherwise count position noted = fail complaint ∧
      (complaint = otherwise ∨ noted = some complaint ∨
        ∃ i, position ≤ i ∧ i < position + count ∧ judge i = .note complaint)) ∨
    (∃ i failure, position ≤ i ∧ i < position + count ∧ judge i = .stop failure ∧
      scan judge otherwise count position noted = .error failure) := by
  induction count generalizing position noted with
  | zero =>
    refine Or.inr (Or.inl ⟨_, rfl, ?_⟩)
    cases noted <;> simp
  | succ count ih =>
    rw [scan]
    cases verdict : judge position with
    | hit => exact Or.inl ⟨position, rfl⟩
    | stop failure => exact Or.inr (Or.inr ⟨position, failure, Nat.le_refl _, by omega, verdict, rfl⟩)
    | pass =>
      rcases ih (position + 1) noted with found | ⟨complaint, eq, source⟩ | ⟨i, failure, le, lt, rest⟩
      · exact Or.inl found
      · refine Or.inr (Or.inl ⟨complaint, eq, ?_⟩)
        rcases source with h | h | ⟨i, le, lt, h⟩
        · exact Or.inl h
        · exact Or.inr (Or.inl h)
        · exact Or.inr (Or.inr ⟨i, by omega, by omega, h⟩)
      · exact Or.inr (Or.inr ⟨i, failure, by omega, by omega, rest⟩)
    | note first =>
      rcases ih (position + 1) (some (noted.getD first)) with
        found | ⟨complaint, eq, source⟩ | ⟨i, failure, le, lt, rest⟩
      · exact Or.inl found
      · refine Or.inr (Or.inl ⟨complaint, eq, ?_⟩)
        rcases source with h | h | ⟨i, le, lt, h⟩
        · exact Or.inl h
        · cases noted with
          | some earlier =>
            simp only [Option.getD_some, Option.some.injEq] at h
            exact Or.inr (Or.inl (congrArg some h))
          | none =>
            simp only [Option.getD_none, Option.some.injEq] at h
            exact Or.inr (Or.inr ⟨position, Nat.le_refl _, by omega, h ▸ verdict⟩)
        · exact Or.inr (Or.inr ⟨i, by omega, by omega, h⟩)
      · exact Or.inr (Or.inr ⟨i, failure, by omega, by omega, rest⟩)

end Scan

end Rdwarfs.Lib.Scan
