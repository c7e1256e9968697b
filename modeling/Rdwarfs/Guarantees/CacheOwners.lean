import Rdwarfs.Guarantees.CacheAccounting
import Rdwarfs.Source.Fs.FetchThreads

/-!
# One decode per block, and no stranded waiter

A marker belongs to the one thread between inserting it and `publish` or `InFlight::drop`.
A thread still waiting for a block is waiting for a marker, or for a notification that some
thread has yet to send.
-/
namespace Rdwarfs.Guarantees.CacheOwners

open Lib.Machine Source Source.Fs CacheAccounting

/-- Thread `t` is between inserting the marker of `block` and giving it up. -/
def Owns (s : Fetches) (t : Nat) (block : UInt32) : Prop :=
  ∃ call stage, s.calls t = some (call, stage) ∧ stage.owns = true ∧ call.block = block

/-- Thread `t` has changed the entry of `block` and not yet called `notify_all`. -/
def Notifies (s : Fetches) (t : Nat) (block : UInt32) : Prop :=
  ∃ call, s.calls t = some (call, .notifying) ∧ call.block = block

structure Orderly (s : Fetches) : Prop where
  accounted : Accounted s.inner
  marked : ∀ block, s.inner.blocks block = some .loading ↔ ∃ t, Owns s t block
  exclusive : ∀ block t u, Owns s t block → Owns s u block → t = u
  awake : ∀ t call, s.calls t = some (call, .parked) →
    s.inner.blocks call.block = some .loading ∨ ∃ u, Notifies s u call.block

section Calls

variable {s : Fetches} {t u : Nat} {inner : Inner} {call : Call} {stage : Stage} {block : UInt32}

theorem calls_moved_ne (ne : u ≠ t) : (s.moved t inner call stage).calls u = s.calls u :=
  Function.update_of_ne ne _ _

theorem calls_returned_ne (ne : u ≠ t) : (s.returned t inner).calls u = s.calls u :=
  Function.update_of_ne ne _ _

theorem calls_moved_self : (s.moved t inner call stage).calls t = some (call, stage) :=
  Function.update_self _ _ _

theorem calls_returned_self : (s.returned t inner).calls t = none :=
  Function.update_self _ _ _

theorem calls_used : (s.used block).calls t = s.calls t := rfl

theorem owns_of_calls (here : s.calls t = some (call, stage)) :
    Owns s t block ↔ stage.owns = true ∧ call.block = block := by
  constructor
  · rintro ⟨_, _, there, owns, same⟩
    rw [here] at there
    cases there
    exact ⟨owns, same⟩
  · rintro ⟨owns, same⟩
    exact ⟨call, stage, here, owns, same⟩

theorem notifies_of_calls (here : s.calls t = some (call, stage)) :
    Notifies s t block ↔ stage = .notifying ∧ call.block = block := by
  constructor
  · rintro ⟨_, there, same⟩
    rw [here] at there
    cases there
    exact ⟨rfl, same⟩
  · rintro ⟨rfl, same⟩
    exact ⟨call, here, same⟩

theorem not_owns_of_free (free : s.calls t = none) : ¬ Owns s t block := by
  rintro ⟨_, _, there, _⟩
  rw [free] at there
  cases there

theorem owns_congr {after : Fetches} (same : after.calls u = s.calls u) :
    Owns after u block ↔ Owns s u block := by
  simp only [Owns, same]

theorem notifies_congr {after : Fetches} (same : after.calls u = s.calls u) :
    Notifies after u block ↔ Notifies s u block := by
  simp only [Notifies, same]

theorem owns_woken (stage : Stage) : stage.woken.owns = stage.owns := by
  cases stage <;> rfl

theorem owns_wakeAll : Owns s.wakeAll t block ↔ Owns s t block := by
  cases here : s.calls t with
  | none =>
    have woken : s.wakeAll.calls t = none := by simp [Fetches.wakeAll, here]
    exact iff_of_false (not_owns_of_free woken) (not_owns_of_free here)
  | some at_ =>
    obtain ⟨call, stage⟩ := at_
    have woken : s.wakeAll.calls t = some (call, stage.woken) := by simp [Fetches.wakeAll, here]
    rw [owns_of_calls woken, owns_of_calls here, owns_woken]

theorem not_parked_wakeAll : s.wakeAll.calls t ≠ some (call, .parked) := by
  intro here
  simp only [Fetches.wakeAll, Option.map_eq_some_iff] at here
  obtain ⟨⟨_, stage⟩, _, woken⟩ := here
  cases stage <;> cases woken

end Calls

section Moves

variable {s : Fetches} (orderly : Orderly s) {t : Nat} {inner : Inner} {call : Call} {stage : Stage}

include orderly

/-- One thread moves. What is asked: the markers are those of its new stage and of the
others, nobody else owns a block it owns, and no waiter is left without a marker or a
notification to come. -/
theorem Orderly.moved (accounted : Accounted inner)
    (marked : ∀ block, inner.blocks block = some .loading ↔
      (stage.owns = true ∧ call.block = block) ∨ ∃ u, u ≠ t ∧ Owns s u block)
    (alone : stage.owns = true → ∀ u, u ≠ t → ¬ Owns s u call.block)
    (parked : stage = .parked → inner.blocks call.block = some .loading)
    (awake : ∀ u other, s.calls u = some (other, .parked) →
      inner.blocks other.block = some .loading ∨ (∃ v, v ≠ t ∧ Notifies s v other.block) ∨
        (stage = .notifying ∧ call.block = other.block)) :
    Orderly (s.moved t inner call stage) := by
  have own : ∀ {block}, Owns (s.moved t inner call stage) t block ↔
      stage.owns = true ∧ call.block = block := owns_of_calls calls_moved_self
  have others : ∀ {u block}, u ≠ t → (Owns (s.moved t inner call stage) u block ↔ Owns s u block) :=
    fun ne => owns_congr (calls_moved_ne ne)
  constructor
  · exact accounted
  · intro block
    apply (marked block).trans
    constructor
    · rintro (mine | ⟨u, ne, owns⟩)
      · exact ⟨t, own.mpr mine⟩
      · exact ⟨u, (others ne).mpr owns⟩
    · rintro ⟨u, owns⟩
      by_cases same : u = t
      · subst same
        exact Or.inl (own.mp owns)
      · exact Or.inr ⟨u, same, (others same).mp owns⟩
  · intro block u v ownsU ownsV
    by_cases sameU : u = t
    · subst sameU
      by_cases sameV : v = u
      · exact sameV.symm
      · obtain ⟨mine, rfl⟩ := own.mp ownsU
        exact absurd ((others sameV).mp ownsV) (alone mine v sameV)
    · by_cases sameV : v = t
      · subst sameV
        obtain ⟨mine, rfl⟩ := own.mp ownsV
        exact absurd ((others sameU).mp ownsU) (alone mine u sameU)
      · exact orderly.exclusive block u v ((others sameU).mp ownsU) ((others sameV).mp ownsV)
  · intro u other waiting
    by_cases same : u = t
    · subst same
      rw [calls_moved_self] at waiting
      cases waiting
      exact Or.inl (parked rfl)
    · rw [calls_moved_ne same] at waiting
      rcases awake u other waiting with loading | ⟨v, ne, notifies⟩ | notifying
      · exact Or.inl loading
      · exact Or.inr ⟨v, (notifies_congr (calls_moved_ne ne)).mpr notifies⟩
      · exact Or.inr ⟨t, (notifies_of_calls calls_moved_self).mpr notifying⟩

/-- A thread that had nothing to notify moves without touching the entries, and owns what it
owned. -/
theorem Orderly.moved_kept (accounted : Accounted inner) (same : inner.blocks = s.inner.blocks)
    (owned : ∀ block, (stage.owns = true ∧ call.block = block) ↔ Owns s t block)
    (quiet : ∀ block, ¬ Notifies s t block)
    (parked : stage = .parked → s.inner.blocks call.block = some .loading) :
    Orderly (s.moved t inner call stage) := by
  apply orderly.moved accounted
  · intro block
    rw [same, orderly.marked block, owned block]
    constructor
    · rintro ⟨u, owns⟩
      by_cases here : u = t
      · exact Or.inl (here ▸ owns)
      · exact Or.inr ⟨u, here, owns⟩
    · rintro (owns | ⟨u, _, owns⟩)
      · exact ⟨t, owns⟩
      · exact ⟨u, owns⟩
  · intro owns u ne other
    exact ne (orderly.exclusive _ u t other ((owned _).mp ⟨owns, rfl⟩))
  · rw [same]
    exact parked
  · intro u other waiting
    rw [same]
    rcases orderly.awake u other waiting with loading | ⟨v, notifies⟩
    · exact Or.inl loading
    · refine Or.inr (Or.inl ⟨v, ?_, notifies⟩)
      rintro rfl
      exact quiet _ notifies

/-- A thread leaves its call, owning nothing and with nobody left to notify. -/
theorem Orderly.returned (accounted : Accounted inner) (same : inner.blocks = s.inner.blocks)
    (unowned : ∀ block, ¬ Owns s t block)
    (awake : ∀ u other, s.calls u = some (other, .parked) → ∀ block, ¬ Notifies s t block) :
    Orderly (s.returned t inner) := by
  have others : ∀ {u block}, Owns (s.returned t inner) u block ↔ Owns s u block := by
    intro u block
    by_cases here : u = t
    · subst here
      exact iff_of_false (not_owns_of_free calls_returned_self) (unowned block)
    · exact owns_congr (calls_returned_ne here)
  constructor
  · exact accounted
  · intro block
    simp only [others]
    exact (congrArg (· block = some .loading) same).to_iff.trans (orderly.marked block)
  · intro block u v ownsU ownsV
    exact orderly.exclusive block u v (others.mp ownsU) (others.mp ownsV)
  · intro u other waiting
    have here : u ≠ t := by
      rintro rfl
      rw [calls_returned_self] at waiting
      cases waiting
    rw [calls_returned_ne here] at waiting
    rcases orderly.awake u other waiting with loading | ⟨v, notifies⟩
    · exact Or.inl ((congrFun same other.block).trans loading)
    · have ne : v ≠ t := by
        rintro rfl
        exact awake u other waiting _ notifies
      exact Or.inr ⟨v, (notifies_congr (calls_returned_ne ne)).mpr notifies⟩

/-- The entry of an owned block stops being a marker, and its owner is about to notify. -/
theorem Orderly.released (accounted : Accounted inner)
    (here : s.calls t = some (call, stage)) (owns : stage.owns = true)
    (gone : inner.blocks call.block ≠ some .loading)
    (others : ∀ block, block ≠ call.block →
      (inner.blocks block = some .loading ↔ s.inner.blocks block = some .loading)) :
    Orderly (s.moved t inner call .notifying) := by
  have mine : Owns s t call.block := (owns_of_calls here).mpr ⟨owns, rfl⟩
  apply orderly.moved accounted
  · intro block
    by_cases same : block = call.block
    · subst same
      apply iff_of_false gone
      rintro (⟨owns, _⟩ | ⟨u, ne, owns⟩)
      · cases owns
      · exact ne (orderly.exclusive _ u t owns mine)
    · rw [others block same, orderly.marked block]
      constructor
      · rintro ⟨u, owns⟩
        refine Or.inr ⟨u, ?_, owns⟩
        rintro rfl
        exact same ((owns_of_calls here).mp owns).2.symm
      · rintro (⟨owns, _⟩ | ⟨u, _, owns⟩)
        · cases owns
        · exact ⟨u, owns⟩
  · intro owns
    cases owns
  · intro parked
    cases parked
  · intro u other waiting
    by_cases same : other.block = call.block
    · exact Or.inr (Or.inr ⟨rfl, same.symm⟩)
    · rcases orderly.awake u other waiting with loading | ⟨v, notifies⟩
      · exact Or.inl ((others _ same).mpr loading)
      · refine Or.inr (Or.inl ⟨v, ?_, notifies⟩)
        rintro rfl
        obtain ⟨rfl, _⟩ := (notifies_of_calls here).mp notifies
        cases owns

theorem Orderly.used (block : UInt32) : Orderly (s.used block) :=
  ⟨orderly.accounted, orderly.marked, orderly.exclusive, orderly.awake⟩

theorem Orderly.wakeAll : Orderly s.wakeAll := by
  constructor
  · exact orderly.accounted
  · intro block
    simp only [owns_wakeAll]
    exact orderly.marked block
  · intro block t u
    rw [owns_wakeAll, owns_wakeAll]
    exact orderly.exclusive block t u
  · intro t call parked
    exact absurd parked not_parked_wakeAll

end Moves

section Steps

variable {budget : Nat} {s after : Fetches}

theorem orderly_initial : Orderly .initial where
  accounted := accounted_empty
  marked block := by simp [Owns, Fetches.initial, Inner.empty]
  exclusive block t u := by simp [Owns, Fetches.initial]
  awake t call := by simp [Fetches.initial]

/-- Every step keeps the invariant. -/
theorem Orderly.step (orderly : Orderly s) (step : Fetches.Step budget s after) :
    Orderly after := by
  cases step with
  | @enter t call free =>
    apply orderly.moved_kept orderly.accounted rfl
    · intro block
      exact iff_of_false (by simp [Stage.owns]) (not_owns_of_free free)
    · rintro block ⟨_, there, _⟩
      rw [free] at there
      cases there
    · intro parked
      cases parked
  | @hit t call bytes inner here found =>
    obtain ⟨_, _, looked, kept, sees⟩ := orderly.accounted.lookup call.block call.needed
    rw [found] at looked
    cases looked
    apply Orderly.used
    apply orderly.returned kept sees.2.2
    · simp [owns_of_calls here, Stage.owns]
    · simp [notifies_of_calls here]
  | @wait t call inner here found =>
    obtain ⟨_, _, looked, kept, sees⟩ := orderly.accounted.lookup call.block call.needed
    rw [found] at looked
    cases looked
    obtain ⟨loading, rfl⟩ := sees
    apply orderly.moved_kept kept rfl
    · simp [owns_of_calls here, Stage.owns]
    · simp [notifies_of_calls here]
    · exact fun _ => loading
  | @claim t call retryInFull inner here found =>
    obtain ⟨_, _, looked, kept, sees⟩ := orderly.accounted.lookup call.block call.needed
    rw [found] at looked
    cases looked
    obtain ⟨unmarked, blocks⟩ := sees
    have unowned : ∀ u, ¬ Owns s u call.block := fun u owns =>
      unmarked ((orderly.marked _).mpr ⟨u, owns⟩)
    apply orderly.moved kept
    · intro block
      rw [blocks]
      by_cases same : block = call.block
      · subst same
        simp [Stage.owns]
      · rw [Function.update_of_ne same, orderly.marked block]
        constructor
        · rintro ⟨u, owns⟩
          refine Or.inr ⟨u, ?_, owns⟩
          rintro rfl
          exact absurd ((owns_of_calls here).mp owns).1 (by simp [Stage.owns])
        · rintro (⟨_, same'⟩ | ⟨u, _, owns⟩)
          · exact absurd same'.symm same
          · exact ⟨u, owns⟩
    · exact fun _ u _ => unowned u
    · intro parked
      cases parked
    · intro u other waiting
      rw [blocks]
      by_cases same : other.block = call.block
      · simp [same]
      · rw [Function.update_of_ne same]
        rcases orderly.awake u other waiting with loading | ⟨v, notifies⟩
        · exact Or.inl loading
        · refine Or.inr (Or.inl ⟨v, ?_, notifies⟩)
          rintro rfl
          exact absurd ((notifies_of_calls here).mp notifies).1 (by simp)
  | @wake t call here =>
    apply orderly.moved_kept orderly.accounted rfl
    · simp [owns_of_calls here, Stage.owns]
    · simp [notifies_of_calls here]
    · intro parked
      cases parked
  | @decoded t call retryInFull bytes here =>
    apply orderly.moved_kept orderly.accounted rfl
    · simp [owns_of_calls here, Stage.owns]
    · simp [notifies_of_calls here]
    · intro parked
      cases parked
  | @failed t call retryInFull here =>
    apply orderly.moved_kept orderly.accounted rfl
    · simp [owns_of_calls here, Stage.owns]
    · simp [notifies_of_calls here]
    · intro parked
      cases parked
  | @record t call bytes here =>
    obtain ⟨kept, same⟩ := orderly.accounted.recordDecoded call.block bytes.length call.whole
    apply orderly.moved_kept kept same
    · simp [owns_of_calls here, Stage.owns]
    · simp [notifies_of_calls here]
    · intro parked
      cases parked
  | @publish t call bytes inner here admitted =>
    obtain ⟨_, looked, kept, own, others⟩ := orderly.accounted.admitBytes call.block bytes budget
    rw [admitted] at looked
    cases looked
    apply Orderly.used
    apply orderly.released kept here rfl
    · simp [own]
    · intro block ne
      rcases others block ne with same | ⟨gone, old, was⟩
      · rw [same]
      · simp [gone, was]
  | @drop t call here =>
    have loading : s.inner.blocks call.block = some .loading :=
      (orderly.marked _).mpr ⟨t, (owns_of_calls here).mpr ⟨rfl, rfl⟩⟩
    apply orderly.released (orderly.accounted.update (by simp [loading]) (by simp)) here rfl
    · simp
    · intro block ne
      exact iff_of_eq (congrArg (· = some Entry.loading) (Function.update_of_ne ne _ _))
  | @notify t call here =>
    have woken : s.wakeAll.calls t = some (call, .notifying) := by
      simp [Fetches.wakeAll, here, Stage.woken]
    apply orderly.wakeAll.returned orderly.accounted rfl
    · simp [owns_of_calls woken, Stage.owns]
    · exact fun u other parked => absurd parked not_parked_wakeAll
  | clear =>
    obtain ⟨accounted, keeps⟩ := @accounted_clear s.inner
    have same : ∀ block, s.inner.clear.blocks block = some .loading ↔
        s.inner.blocks block = some .loading := by
      intro block
      rcases keeps block with same | ⟨gone, bytes, was⟩
      · rw [same]
      · simp [gone, was]
    constructor
    · exact accounted
    · exact fun block => (same block).trans (orderly.marked block)
    · exact orderly.exclusive
    · intro t call waiting
      exact (orderly.awake t call waiting).imp_left (same call.block).mpr
  | resident block =>
    obtain ⟨accounted, same⟩ := orderly.accounted.touch block
    apply Orderly.used
    exact ⟨accounted, same ▸ orderly.marked, orderly.exclusive, same ▸ orderly.awake⟩

/-- Every state of every run is orderly. -/
theorem orderly_of_reachable (reachable : Fetches.Reachable budget s) : Orderly s := by
  induction reachable with
  | refl => exact orderly_initial
  | tail _ step orderly => exact orderly.step step

/-- A marker has exactly one owner, no two threads decode one block, a dropped `InFlight`
takes its own marker and nothing else, and whoever waits unnotified waits for a marker or
for a thread that has yet to notify. -/
theorem one_decode_no_stranding (reachable : Fetches.Reachable budget s) :
    (∀ block, s.inner.blocks block = some .loading → ∃! t, Owns s t block) ∧
    (∀ t u call other retry otherRetry, s.calls t = some (call, .decoding retry) →
      s.calls u = some (other, .decoding otherRetry) → call.block = other.block → t = u) ∧
    (∀ t call, s.calls t = some (call, .dropping) →
      s.inner.blocks call.block = some .loading ∧ (∀ u, Owns s u call.block → u = t) ∧
      ∀ block, block ≠ call.block →
        (s.inner.abandon call.block).blocks block = s.inner.blocks block) ∧
    ∀ t call, s.calls t = some (call, .parked) →
      s.inner.blocks call.block = some .loading ∨ ∃ u, Notifies s u call.block := by
  have orderly := orderly_of_reachable reachable
  refine ⟨?_, ?_, ?_, orderly.awake⟩
  · intro block loading
    obtain ⟨t, owns⟩ := (orderly.marked block).mp loading
    exact ⟨t, owns, fun u other => orderly.exclusive block u t other owns⟩
  · intro t u call other retry otherRetry here there same
    apply orderly.exclusive other.block
    · exact ⟨call, _, here, rfl, same⟩
    · exact ⟨other, _, there, rfl, rfl⟩
  · intro t call here
    have owns : Owns s t call.block := ⟨call, _, here, rfl, rfl⟩
    refine ⟨(orderly.marked _).mpr ⟨t, owns⟩, fun u other => ?_, fun block ne => ?_⟩
    · exact orderly.exclusive _ u t other owns
    · exact Function.update_of_ne ne _ _

/-- Two threads ask for one block; the decode of the first fails. -/
theorem failed_run :
    ∃ s, Fetches.Reachable 0 s ∧ s.calls 1 = some (⟨7, 1, 4⟩, .parked) ∧
      s.inner.blocks 7 = none := by
  have first : Fetches.Reachable 0 _ :=
    Relation.ReflTransGen.refl.tail (.enter (t := 0) ⟨7, 1, 4⟩ rfl)
  have both := first.tail (.enter (t := 1) ⟨7, 1, 4⟩ rfl)
  have claimed := both.tail (.claim (t := 0) rfl rfl)
  have waiting := claimed.tail (.wait (t := 1) rfl rfl)
  have failed := waiting.tail (.failed (t := 0) rfl)
  exact ⟨_, failed.tail (.drop (t := 0) rfl), rfl, rfl⟩

theorem one_decode_no_stranding_failed :
    ∃ s u, Fetches.Reachable 0 s ∧ Notifies s u 7 := by
  obtain ⟨s, reachable, parked, absent⟩ := failed_run
  rcases (one_decode_no_stranding reachable).2.2.2 1 _ parked with loading | ⟨u, notifies⟩
  · rw [absent] at loading
    cases loading
  · exact ⟨s, u, reachable, notifies⟩

end Steps

end Rdwarfs.Guarantees.CacheOwners
