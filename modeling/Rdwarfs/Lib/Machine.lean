import Mathlib.Algebra.Ring.Int.Defs
import Mathlib.Algebra.Ring.Nat
import Mathlib.Tactic.Common
import Mathlib.Data.List.Forall2

/-!
# Fallible computations over machine words

A call ends in a value, in an error value of its own type, or in a panic: an
addition that overflows in a checked build, an index or a range outside its
slice. Keeping the last two apart is what lets a statement say that hostile
input is refused rather than fatal.

Words are natural numbers below `2 ^ 64`. Operators that the language defines on
every operand (`checked_add`, `saturating_add`) are total functions; the plain
operators depend on the build, and `Arith.exact` is the unbounded arithmetic that
a specification compares the other two with.
-/
namespace Rdwarfs.Lib.Machine

/-- How a call ends when it returns no value. -/
inductive Failure (ε : Type) where
  | err (reason : ε)
  | panic
  deriving DecidableEq, Repr

abbrev Res (ε α : Type) := Except (Failure ε) α

abbrev fail {ε α : Type} (reason : ε) : Res ε α := .error (.err reason)

abbrev panicked {ε α : Type} : Res ε α := .error .panic

def okOr {ε α : Type} (found : Option α) (reason : ε) : Res ε α :=
  match found with
  | some value => .ok value
  | none => fail reason

/-- `if bad { return Err(reason) }` -/
def refuseIf {ε : Type} (bad : Prop) [Decidable bad] (reason : ε) : Res ε Unit :=
  if bad then fail reason else .ok ()

/-- Both ways a call returns, as a value the caller goes on with; a panic stays one. -/
def attempt {ε φ α : Type} (run : Res ε α) : Res φ (Except ε α) :=
  match run with
  | .ok value => .ok (.ok value)
  | .error (.err reason) => .ok (.error reason)
  | .error .panic => panicked

section Bind

variable {ε α β : Type}

@[simp] theorem ok_bind (value : α) (next : α → Res ε β) :
    ((.ok value : Res ε α) >>= next) = next value := rfl

@[simp] theorem error_bind (failure : Failure ε) (next : α → Res ε β) :
    ((.error failure : Res ε α) >>= next) = .error failure := rfl

@[simp] theorem pure_eq_ok (value : α) : (pure value : Res ε α) = .ok value := rfl

theorem bind_eq_ok {step : Res ε α} {next : α → Res ε β} {value : β} :
    (step >>= next) = .ok value ↔ ∃ x, step = .ok x ∧ next x = .ok value := by
  cases step with
  | error failure => simp
  | ok x => simp

theorem bind_eq_panicked {step : Res ε α} {next : α → Res ε β} :
    (step >>= next) = panicked ↔ step = panicked ∨ ∃ x, step = .ok x ∧ next x = panicked := by
  cases step with
  | error failure => simp
  | ok x => simp

@[simp] theorem okOr_eq_ok {found : Option α} {reason : ε} {value : α} :
    okOr found reason = .ok value ↔ found = some value := by
  cases found <;> simp [okOr]

@[simp] theorem okOr_some (value : α) (reason : ε) :
    okOr (some value) reason = .ok value := rfl

@[simp] theorem okOr_none (reason : ε) : (okOr none reason : Res ε α) = fail reason := rfl

@[simp] theorem refuseIf_eq_ok {bad : Prop} [Decidable bad] {reason : ε} {done : Unit} :
    refuseIf bad reason = .ok done ↔ ¬ bad := by
  unfold refuseIf
  split <;> simp_all

theorem refuseIf_of {bad : Prop} [Decidable bad] {reason : ε} (holds : bad) :
    refuseIf bad reason = fail reason := if_pos holds

theorem refuseIf_of_not {bad : Prop} [Decidable bad] {reason : ε} (absent : ¬ bad) :
    refuseIf bad reason = .ok () := if_neg absent

@[simp] theorem attempt_ok {φ : Type} (value : α) :
    (attempt (.ok value : Res ε α) : Res φ (Except ε α)) = .ok (.ok value) := rfl

@[simp] theorem attempt_fail {φ : Type} (reason : ε) :
    (attempt (fail reason : Res ε α) : Res φ (Except ε α)) = .ok (.error reason) := rfl

@[simp] theorem refuseIf_ne_panicked (bad : Prop) [Decidable bad] (reason : ε) :
    refuseIf bad reason ≠ panicked := by
  unfold refuseIf
  split <;> simp

@[simp] theorem okOr_ne_panicked (found : Option α) (reason : ε) :
    okOr found reason ≠ panicked := by
  cases found <;> simp [okOr]

end Bind

/-- Words run from zero to `wordLimit - 1`. -/
def wordLimit : Nat := 2 ^ 64

theorem wordLimit_eq : wordLimit = 18446744073709551616 := rfl

/-- What the compiled program does when a plain operator leaves the word. -/
inductive Build where
  | checked
  | wrapping
  deriving DecidableEq, Repr

inductive Arith where
  | machine (build : Build)
  | exact
  deriving DecidableEq, Repr

namespace Arith

variable {ε : Type}

/-- The plain `x + y`. -/
def add (arith : Arith) (x y : Nat) : Res ε Nat :=
  match arith with
  | .exact => .ok (x + y)
  | .machine .checked => if x + y < wordLimit then .ok (x + y) else panicked
  | .machine .wrapping => .ok ((x + y) % wordLimit)

/-- The plain `x * y`. -/
def mul (arith : Arith) (x y : Nat) : Res ε Nat :=
  match arith with
  | .exact => .ok (x * y)
  | .machine .checked => if x * y < wordLimit then .ok (x * y) else panicked
  | .machine .wrapping => .ok ((x * y) % wordLimit)

def saturatingAdd (arith : Arith) (x y : Nat) : Nat :=
  match arith with
  | .exact => x + y
  | .machine _ => min (x + y) (wordLimit - 1)

def saturatingMul (arith : Arith) (x y : Nat) : Nat :=
  match arith with
  | .exact => x * y
  | .machine _ => min (x * y) (wordLimit - 1)

def checkedAdd (arith : Arith) (x y : Nat) : Option Nat :=
  match arith with
  | .exact => some (x + y)
  | .machine _ => if x + y < wordLimit then some (x + y) else none

def checkedMul (arith : Arith) (x y : Nat) : Option Nat :=
  match arith with
  | .exact => some (x * y)
  | .machine _ => if x * y < wordLimit then some (x * y) else none

/-- Below the limit every arithmetic adds alike. -/
theorem add_of_lt (arith : Arith) {x y : Nat} (fits : x + y < wordLimit) :
    (arith.add x y : Res ε Nat) = .ok (x + y) := by
  cases arith with
  | exact => rfl
  | machine build => cases build <;> simp [add, fits, Nat.mod_eq_of_lt]

theorem mul_of_lt (arith : Arith) {x y : Nat} (fits : x * y < wordLimit) :
    (arith.mul x y : Res ε Nat) = .ok (x * y) := by
  cases arith with
  | exact => rfl
  | machine build => cases build <;> simp [mul, fits, Nat.mod_eq_of_lt]

theorem checkedAdd_of_lt (arith : Arith) {x y : Nat} (fits : x + y < wordLimit) :
    arith.checkedAdd x y = some (x + y) := by
  cases arith with
  | exact => rfl
  | machine build => exact if_pos fits

theorem checkedMul_of_lt (arith : Arith) {x y : Nat} (fits : x * y < wordLimit) :
    arith.checkedMul x y = some (x * y) := by
  cases arith with
  | exact => rfl
  | machine build => exact if_pos fits

theorem add_checked_eq_panicked {x y : Nat} :
    ((Arith.machine .checked).add x y : Res ε Nat) = panicked ↔ wordLimit ≤ x + y := by
  by_cases fits : x + y < wordLimit
  · simp [add, fits, Nat.not_le.mpr fits]
  · simp [add, fits, Nat.le_of_not_lt fits]

theorem add_checked_eq_ok {x y z : Nat} :
    ((Arith.machine .checked).add x y : Res ε Nat) = .ok z ↔ x + y < wordLimit ∧ x + y = z := by
  by_cases fits : x + y < wordLimit
  · simp [add, fits]
  · simp [add, fits]

end Arith

section Checked

variable {ε : Type}

/-- `x + y` where overflow ends the run; what a release build wraps instead. -/
abbrev addWord (x y : Nat) : Res ε Nat := (Arith.machine .checked).add x y

def subWord (x y : Nat) : Res ε Nat :=
  if y ≤ x then .ok (x - y) else panicked

def checkedAddWord (x y : Nat) : Option Nat := (Arith.machine .checked).checkedAdd x y

def saturatingAddWord (x y : Nat) : Nat := (Arith.machine .checked).saturatingAdd x y

theorem addWord_of_lt {x y : Nat} (fits : x + y < wordLimit) :
    (addWord x y : Res ε Nat) = .ok (x + y) :=
  Arith.add_of_lt _ fits

theorem subWord_of_le {x y : Nat} (le : y ≤ x) : (subWord x y : Res ε Nat) = .ok (x - y) := by
  simp [subWord, le]

theorem checkedAddWord_of_lt {x y : Nat} (fits : x + y < wordLimit) :
    checkedAddWord x y = some (x + y) :=
  Arith.checkedAdd_of_lt _ fits

theorem checkedAddWord_eq_some {x y z : Nat} :
    checkedAddWord x y = some z ↔ x + y < wordLimit ∧ x + y = z := by
  by_cases fits : x + y < wordLimit
  · simp [checkedAddWord, Arith.checkedAdd, fits]
  · simp [checkedAddWord, Arith.checkedAdd, fits]

theorem saturatingAddWord_eq (x y : Nat) :
    saturatingAddWord x y = min (x + y) (wordLimit - 1) := rfl

end Checked

section Slices

variable {ε α : Type}

/-- `xs[start..stop]`. -/
def slice (xs : List α) (start stop : Nat) : Res ε (List α) :=
  if start ≤ stop ∧ stop ≤ xs.length then .ok ((xs.drop start).take (stop - start)) else panicked

/-- `xs[i]`. -/
def index (xs : List α) (i : Nat) : Res ε α :=
  match xs[i]? with
  | some x => .ok x
  | none => panicked

theorem slice_of_le {xs : List α} {start stop : Nat} (le : start ≤ stop) (bound : stop ≤ xs.length) :
    (slice xs start stop : Res ε (List α)) = .ok ((xs.drop start).take (stop - start)) := by
  simp [slice, le, bound]

theorem index_of_getElem? {xs : List α} {i : Nat} {x : α} (found : xs[i]? = some x) :
    (index xs i : Res ε α) = .ok x := by
  simp [index, found]

theorem index_eq_ok {xs : List α} {i : Nat} {x : α} :
    (index xs i : Res ε α) = .ok x ↔ xs[i]? = some x := by
  cases found : xs[i]? <;> simp [index, found]

end Slices

section Loops

variable {ε α β : Type}

/-- `for x in xs` collecting one result per element, ended by the first failure. -/
def collect (body : α → Res ε β) : List α → Res ε (List β)
  | [] => .ok []
  | x :: rest => do
    let y ← body x
    let ys ← collect body rest
    .ok (y :: ys)

theorem collect_eq_ok (body : α → Res ε β) (xs : List α) (ys : List β) :
    collect body xs = .ok ys ↔ List.Forall₂ (fun x y => body x = .ok y) xs ys := by
  induction xs generalizing ys with
  | nil => simp [collect, List.forall₂_nil_left_iff, eq_comm]
  | cons x rest ih =>
    simp only [collect, bind_eq_ok]
    constructor
    · rintro ⟨y, hy, zs, hzs, done⟩
      cases done
      exact .cons hy ((ih zs).mp hzs)
    · rintro (_ | ⟨hy, hrest⟩)
      exact ⟨_, hy, _, (ih _).mpr hrest, rfl⟩

/-- A loop panics exactly where an element does after every earlier one returned. -/
theorem collect_eq_panicked (body : α → Res ε β) (xs : List α) :
    collect body xs = panicked ↔
      ∃ before x after, xs = before ++ x :: after ∧
        (∀ y ∈ before, ∃ value, body y = .ok value) ∧ body x = panicked := by
  induction xs with
  | nil => simp [collect]
  | cons x rest ih =>
    simp only [collect, bind_eq_panicked, ih]
    constructor
    · rintro (here | ⟨value, hx, (⟨before, z, after, rfl, earlier, hz⟩ | ⟨ys, _, done⟩)⟩)
      · exact ⟨[], x, rest, rfl, by simp, here⟩
      · refine ⟨x :: before, z, after, rfl, ?_, hz⟩
        intro y member
        rcases List.mem_cons.mp member with rfl | member
        · exact ⟨value, hx⟩
        · exact earlier y member
      · cases done
    · rintro ⟨before, z, after, split, earlier, hz⟩
      cases before with
      | nil =>
        cases split
        exact Or.inl hz
      | cons b before =>
        cases split
        obtain ⟨value, hx⟩ := earlier x (by simp)
        exact Or.inr ⟨value, hx, Or.inl ⟨before, z, after, rfl,
          fun y member => earlier y (by simp [member]), hz⟩⟩

end Loops

end Rdwarfs.Lib.Machine
