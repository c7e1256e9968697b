import Rdwarfs.Lib.Machine

/-!
# One computation in three arithmetics

A computation over `Arith` runs in a checked build, in a wrapping one and in unbounded
numbers. `Tracks` relates the three runs and `Settles` rules out the panic; both pass through
sequencing and loops, so that each needs stating once per function.
-/
namespace Rdwarfs.Lib.Builds

open Machine

variable {ε α β : Type}

/-- No operator leaves the word, and what a build returns the unbounded run returns too. -/
def Exact (run : Arith → Res ε α) : Prop :=
  run (.machine .checked) ≠ panicked ∧
    ∀ build value, run (.machine build) = .ok value → run .exact = .ok value

/-- Unless the checked run panics, the wrapping run is the same, and exact if it returns. -/
def Tracks (run : Arith → Res ε α) : Prop :=
  run (.machine .checked) = panicked ∨
    (run (.machine .wrapping) = run (.machine .checked) ∧
      ∀ value, run (.machine .checked) = .ok value → run .exact = .ok value)

/-- The run ends without a panic, in a value of `post` if it returns one. -/
def Settles (run : Res ε α) (post : α → Prop) : Prop :=
  run ≠ panicked ∧ ∀ value, run = .ok value → post value

/-- However the run fails, it fails in an allowed way. -/
def FailsOnly (allowed : Failure ε → Prop) (run : Res ε α) : Prop :=
  ∀ failure, run = .error failure → allowed failure

/-- The three runs are one. -/
def Fixed (run : Arith → Res ε α) : Prop := ∀ arith, run arith = run .exact

/-- Both: no arithmetic panics, and the three agree on what is returned. -/
structure Sound (run : Arith → Res ε α) (post : α → Prop) : Prop where
  tracks : Tracks run
  settles : ∀ arith, Settles (run arith) post

section Tracks

/-- For a computation that tracks, exactness is the absence of a panic. -/
theorem Tracks.exact_iff {run : Arith → Res ε α} (tracks : Tracks run) :
    Exact run ↔ run (.machine .checked) ≠ panicked := by
  refine ⟨fun exact => exact.1, fun calm => ⟨calm, fun build value returned => ?_⟩⟩
  obtain ⟨agree, true_⟩ := tracks.resolve_left calm
  cases build with
  | checked => exact true_ value returned
  | wrapping => exact true_ value (agree ▸ returned)

/-- A computation that does not look at the arithmetic. -/
theorem Tracks.of_constant {run : Arith → Res ε α} (same : ∀ arith, run arith = run .exact) :
    Tracks run :=
  Or.inr ⟨(same _).trans (same _).symm, fun _ returned => (same _).symm.trans returned⟩

/-- What follows need only track after values that the checked run returns. -/
theorem Tracks.bind_of_returned {run : Arith → Res ε α} {next : Arith → α → Res ε β}
    (first : Tracks run)
    (rest : ∀ value, run (.machine .checked) = .ok value → Tracks fun arith => next arith value) :
    Tracks fun arith => run arith >>= next arith := by
  rcases first with stopped | ⟨agree, true_⟩
  · exact Or.inl (by simp only [stopped, error_bind])
  · cases returned : run (.machine .checked) with
    | error failure => exact Or.inr ⟨by simp only [agree, returned, error_bind], by simp [returned]⟩
    | ok value =>
      have here := rest value returned
      simpa only [Tracks, agree, returned, true_ value returned, ok_bind] using here

theorem Tracks.bind {run : Arith → Res ε α} {next : Arith → α → Res ε β} (first : Tracks run)
    (rest : ∀ value, Tracks fun arith => next arith value) :
    Tracks fun arith => run arith >>= next arith :=
  first.bind_of_returned fun value _ => rest value

theorem Tracks.collect {γ : Type} {body : Arith → γ → Res ε β}
    (each : ∀ x, Tracks fun arith => body arith x) (xs : List γ) :
    Tracks fun arith => Machine.collect (body arith) xs := by
  induction xs with
  | nil => exact .of_constant fun _ => rfl
  | cons x rest ih => exact (each x).bind fun _ => ih.bind fun _ => .of_constant fun _ => rfl

theorem Tracks.foldlM {γ : Type} {body : Arith → α → γ → Res ε α}
    (each : ∀ acc x, Tracks fun arith => body arith acc x) (xs : List γ) (start : α) :
    Tracks fun arith => xs.foldlM (body arith) start := by
  induction xs generalizing start with
  | nil => exact .of_constant fun _ => rfl
  | cons x rest ih =>
    simp only [List.foldlM_cons]
    exact (each start x).bind fun acc => ih acc

theorem Tracks.ite {cond : Prop} [Decidable cond] {yes no : Arith → Res ε α} (one : Tracks yes)
    (other : Tracks no) : Tracks fun arith => if cond then yes arith else no arith := by
  by_cases holds : cond
  · simpa only [if_pos holds] using one
  · simpa only [if_neg holds] using other

theorem tracks_add (x y : Nat) : Tracks fun arith => (arith.add x y : Res ε Nat) := by
  by_cases fits : x + y < wordLimit
  · exact .of_constant fun arith => by rw [arith.add_of_lt fits, Arith.add_of_lt _ fits]
  · exact Or.inl (by simp [Arith.add, fits])

theorem tracks_mul (x y : Nat) : Tracks fun arith => (arith.mul x y : Res ε Nat) := by
  by_cases fits : x * y < wordLimit
  · exact .of_constant fun arith => by rw [arith.mul_of_lt fits, Arith.mul_of_lt _ fits]
  · exact Or.inl (by simp [Arith.mul, fits])

theorem tracks_checkedAdd (x y : Nat) (reason : ε) :
    Tracks fun arith => okOr (arith.checkedAdd x y) reason := by
  refine Or.inr ⟨rfl, fun value returned => ?_⟩
  by_cases fits : x + y < wordLimit <;>
    simp_all [Arith.checkedAdd]

theorem tracks_checkedMul (x y : Nat) (reason : ε) :
    Tracks fun arith => okOr (arith.checkedMul x y) reason := by
  refine Or.inr ⟨rfl, fun value returned => ?_⟩
  by_cases fits : x * y < wordLimit <;>
    simp_all [Arith.checkedMul]

end Tracks

section Settles

theorem settles_ok {value : α} {post : α → Prop} (holds : post value) :
    Settles (.ok value : Res ε α) post :=
  ⟨by simp, fun _ returned => by cases returned; exact holds⟩

theorem settles_fail (reason : ε) (post : α → Prop) : Settles (fail reason : Res ε α) post :=
  ⟨by simp, by simp⟩

theorem settles_okOr (found : Option α) (reason : ε) :
    Settles (okOr found reason) (found = some ·) :=
  ⟨okOr_ne_panicked found reason, fun _ returned => okOr_eq_ok.mp returned⟩

theorem settles_refuseIf (bad : Prop) [Decidable bad] (reason : ε) :
    Settles (refuseIf bad reason) fun _ => ¬ bad :=
  ⟨refuseIf_ne_panicked bad reason, fun _ returned => refuseIf_eq_ok.mp returned⟩

theorem settles_index {xs : List α} {i : Nat} (bound : i < xs.length) :
    Settles (index xs i : Res ε α) (xs[i]? = some ·) := by
  rw [index_of_getElem? (List.getElem?_eq_getElem bound)]
  exact settles_ok (List.getElem?_eq_getElem bound)

theorem settles_slice {xs : List α} {start stop : Nat} (le : start ≤ stop)
    (bound : stop ≤ xs.length) :
    Settles (slice xs start stop : Res ε (List α)) (·.length = stop - start) := by
  rw [slice_of_le le bound]
  apply settles_ok
  rw [List.length_take, List.length_drop]
  omega

theorem settles_subWord {x y : Nat} (le : y ≤ x) : Settles (subWord x y : Res ε Nat) (· = x - y) := by
  rw [subWord_of_le le]
  exact settles_ok rfl

theorem settles_addWord {x y : Nat} (fits : x + y < wordLimit) :
    Settles (addWord x y : Res ε Nat) (· = x + y) := by
  rw [addWord_of_lt fits]
  exact settles_ok rfl

theorem Settles.mono {run : Res ε α} {post weaker : α → Prop} (settles : Settles run post)
    (implies : ∀ value, post value → weaker value) : Settles run weaker :=
  ⟨settles.1, fun value returned => implies value (settles.2 value returned)⟩

theorem Settles.bind {run : Res ε α} {next : α → Res ε β} {post : α → Prop} {after : β → Prop}
    (first : Settles run post) (rest : ∀ value, post value → Settles (next value) after) :
    Settles (run >>= next) after := by
  cases returned : run with
  | error failure =>
    refine ⟨fun stopped => first.1 ?_, by simp⟩
    simp only [error_bind, Except.error.injEq] at stopped
    rw [returned, stopped]
  | ok value => exact rest value (first.2 value returned)

theorem Settles.ite {cond : Prop} [Decidable cond] {yes no : Res ε α} {post : α → Prop}
    (one : cond → Settles yes post) (other : ¬ cond → Settles no post) :
    Settles (if cond then yes else no) post := by
  by_cases holds : cond
  · simpa only [if_pos holds] using one holds
  · simpa only [if_neg holds] using other holds

theorem Settles.collect {γ : Type} {body : γ → Res ε β} {xs : List γ}
    (each : ∀ x ∈ xs, Settles (body x) fun _ => True) :
    Settles (Machine.collect body xs) fun _ => True := by
  induction xs with
  | nil => exact settles_ok trivial
  | cons x rest ih =>
    refine (each x (by simp)).bind fun y _ => ?_
    exact (ih fun z member => each z (by simp [member])).bind fun ys _ => settles_ok trivial

theorem Settles.foldlM {γ : Type} {body : α → γ → Res ε α} {xs : List γ} {start : α}
    {invariant : α → Prop} (holds : invariant start)
    (each : ∀ acc x, x ∈ xs → invariant acc → Settles (body acc x) invariant) :
    Settles (xs.foldlM body start) invariant := by
  induction xs generalizing start with
  | nil => exact settles_ok holds
  | cons x rest ih =>
    rw [List.foldlM_cons]
    exact (each start x (by simp) holds).bind fun acc kept =>
      ih kept fun acc y member => each acc y (by simp [member])

end Settles

section FailsOnly

variable {allowed : Failure ε → Prop}

theorem failsOnly_ok (value : α) : FailsOnly allowed (.ok value : Res ε α) := by
  intro failure stopped
  cases stopped

theorem failsOnly_error {failure : Failure ε} (holds : allowed failure) :
    FailsOnly allowed (.error failure : Res ε α) := by
  intro other stopped
  cases stopped
  exact holds

theorem failsOnly_okOr {found : Option α} {reason : ε} (holds : allowed (.err reason)) :
    FailsOnly allowed (okOr found reason) := by
  cases found with
  | none => exact failsOnly_error holds
  | some value => exact failsOnly_ok value

theorem failsOnly_refuseIf (bad : Prop) [Decidable bad] {reason : ε}
    (holds : allowed (.err reason)) : FailsOnly allowed (refuseIf bad reason) := by
  unfold refuseIf
  split
  · exact failsOnly_error holds
  · exact failsOnly_ok ()

theorem failsOnly_index (xs : List α) (i : Nat) (holds : allowed .panic) :
    FailsOnly allowed (index xs i) := by
  unfold index
  split
  · exact failsOnly_ok _
  · exact failsOnly_error holds

theorem failsOnly_slice (xs : List α) (start stop : Nat) (holds : allowed .panic) :
    FailsOnly allowed (slice xs start stop) := by
  unfold slice
  split
  · exact failsOnly_ok _
  · exact failsOnly_error holds

theorem failsOnly_subWord (x y : Nat) (holds : allowed .panic) :
    FailsOnly allowed (subWord x y : Res ε Nat) := by
  unfold subWord
  split
  · exact failsOnly_ok _
  · exact failsOnly_error holds

theorem failsOnly_addWord (x y : Nat) (holds : allowed .panic) :
    FailsOnly allowed (addWord x y : Res ε Nat) := by
  by_cases fits : x + y < wordLimit
  · rw [addWord_of_lt fits]
    exact failsOnly_ok _
  · rw [addWord, Arith.add_checked_eq_panicked.mpr (Nat.le_of_not_lt fits)]
    exact failsOnly_error holds

theorem FailsOnly.bind {run : Res ε α} {next : α → Res ε β} (first : FailsOnly allowed run)
    (rest : ∀ value, FailsOnly allowed (next value)) : FailsOnly allowed (run >>= next) := by
  cases returned : run with
  | error failure => exact failsOnly_error (first failure returned)
  | ok value => exact rest value

theorem FailsOnly.ite {cond : Prop} [Decidable cond] {yes no : Res ε α}
    (one : FailsOnly allowed yes) (other : FailsOnly allowed no) :
    FailsOnly allowed (if cond then yes else no) := by
  by_cases holds : cond
  · simpa only [if_pos holds] using one
  · simpa only [if_neg holds] using other

end FailsOnly

section Fixed

theorem Fixed.bind {run : Arith → Res ε α} {next : Arith → α → Res ε β} (first : Fixed run)
    (rest : ∀ value, run .exact = .ok value → Fixed fun arith => next arith value) :
    Fixed fun arith => run arith >>= next arith := by
  intro arith
  simp only [first arith]
  cases returned : run .exact with
  | error failure => rfl
  | ok value => exact rest value returned arith

theorem Fixed.ite {cond : Prop} [Decidable cond] {yes no : Arith → Res ε α} (one : Fixed yes)
    (other : Fixed no) : Fixed fun arith => if cond then yes arith else no arith := by
  intro arith
  by_cases holds : cond
  · simpa only [if_pos holds] using one arith
  · simpa only [if_neg holds] using other arith

theorem fixed_add {x y : Nat} (fits : x + y < wordLimit) :
    Fixed fun arith => (arith.add x y : Res ε Nat) := fun arith =>
  (arith.add_of_lt fits).trans (Arith.add_of_lt _ fits).symm

theorem fixed_checkedAdd {x y : Nat} (fits : x + y < wordLimit) (reason : ε) :
    Fixed fun arith => okOr (arith.checkedAdd x y) reason := by
  intro arith
  cases arith with
  | exact => rfl
  | machine build => simp only [Arith.checkedAdd, if_pos fits]

end Fixed

section Sound

theorem Sound.exact {run : Arith → Res ε α} {post : α → Prop} (sound : Sound run post) : Exact run :=
  sound.tracks.exact_iff.mpr (sound.settles _).1

theorem Sound.of_constant {run : Arith → Res ε α} {post : α → Prop}
    (same : ∀ arith, run arith = run .exact) (settles : Settles (run .exact) post) :
    Sound run post :=
  ⟨.of_constant same, fun arith => same arith ▸ settles⟩

theorem Sound.mono {run : Arith → Res ε α} {post weaker : α → Prop} (sound : Sound run post)
    (implies : ∀ value, post value → weaker value) : Sound run weaker :=
  ⟨sound.tracks, fun arith => (sound.settles arith).mono implies⟩

theorem Sound.bind {run : Arith → Res ε α} {next : Arith → α → Res ε β} {post : α → Prop}
    {after : β → Prop} (first : Sound run post)
    (rest : ∀ value, post value → Sound (fun arith => next arith value) after) :
    Sound (fun arith => run arith >>= next arith) after where
  tracks := first.tracks.bind_of_returned fun value returned =>
    (rest value ((first.settles _).2 value returned)).tracks
  settles arith := (first.settles arith).bind fun value holds => (rest value holds).settles arith

theorem Sound.ite {cond : Prop} [Decidable cond] {yes no : Arith → Res ε α} {post : α → Prop}
    (one : Sound yes post) (other : Sound no post) :
    Sound (fun arith => if cond then yes arith else no arith) post where
  tracks := .ite one.tracks other.tracks
  settles arith := .ite (fun _ => one.settles arith) fun _ => other.settles arith

theorem Sound.collect {γ : Type} {body : Arith → γ → Res ε β}
    (each : ∀ x, Sound (fun arith => body arith x) fun _ => True) (xs : List γ) :
    Sound (fun arith => Machine.collect (body arith) xs) fun _ => True where
  tracks := .collect (fun x => (each x).tracks) xs
  settles arith := .collect fun x _ => (each x).settles arith

end Sound

/-- A counted loop panics exactly where an iteration does after all earlier ones returned. -/
theorem collect_range_eq_panicked (body : Nat → Res ε β) (count : Nat) :
    collect body (List.range count) = panicked ↔
      ∃ i < count, (∀ j < i, ∃ value, body j = .ok value) ∧ body i = panicked := by
  rw [collect_eq_panicked]
  constructor
  · rintro ⟨before, i, after, split, earlier, stopped⟩
    have position : i = before.length := by
      have at_ : (List.range count)[before.length]? = some i := by simp [split]
      rw [List.getElem?_eq_some_iff] at at_
      obtain ⟨_, same⟩ := at_
      simpa using same.symm
    have heads : before = List.range before.length := by
      have taken := congrArg (List.take before.length) split
      rw [List.take_range, List.take_left] at taken
      have short := congrArg List.length split
      simp only [List.length_range, List.length_append, List.length_cons] at short
      rw [Nat.min_eq_left (by omega)] at taken
      exact taken.symm
    have short := congrArg List.length split
    simp only [List.length_range, List.length_append, List.length_cons] at short
    refine ⟨i, by omega, fun j below => earlier j ?_, stopped⟩
    rw [heads, List.mem_range]
    omega
  · rintro ⟨i, within, earlier, stopped⟩
    refine ⟨List.range i, i, (List.range (count - i - 1)).map (i + 1 + ·), ?_, ?_, stopped⟩
    · rw [← List.range'_eq_map_range, List.range_eq_range', List.range_eq_range',
        ← List.range'_succ]
      have joined := @List.range'_append_1 0 i (count - i - 1 + 1)
      rw [Nat.zero_add] at joined
      rw [joined]
      congr 1
      omega
    · exact fun j member => earlier j (List.mem_range.mp member)

/-- Where the later iterations cannot panic once the first returned, the first decides. -/
theorem foldlM_range_eq_panicked {body : α → Nat → Res ε α} {start : α} {count : Nat}
    (later : ∀ first, body start 0 = .ok first → ∀ acc i, i < count → body acc i ≠ panicked) :
    (List.range count).foldlM body start = panicked ↔ 0 < count ∧ body start 0 = panicked := by
  cases count with
  | zero => simp
  | succ count =>
    rw [List.range_succ_eq_map, List.foldlM_cons, bind_eq_panicked]
    refine ⟨fun stopped => ⟨Nat.succ_pos count, ?_⟩, fun here => Or.inl here.2⟩
    rcases stopped with here | ⟨first, returned, stopped⟩
    · exact here
    · have calm : Settles (((List.range count).map Nat.succ).foldlM body first) fun _ => True := by
        refine .foldlM trivial fun acc i member _ => ?_
        obtain ⟨j, below, rfl⟩ := List.mem_map.mp member
        have bound := List.mem_range.mp below
        exact ⟨later first returned acc _ (by omega), fun _ _ => trivial⟩
      exact absurd stopped calm.1

end Rdwarfs.Lib.Builds
