import Rdwarfs.Guarantees.CacheOwners
import Rdwarfs.Source.Fs.SharedCache

/-!
# Readers are threads inside `fetch`

`Shared` runs whole reads over one cache, and a thread of it that has asked for a block is
in one call of `fetch`. Forgetting the rest of each read leaves a run of `Fetches`, so what
holds of every cache that threads fetch from holds of every cache that reads share.
-/
namespace Rdwarfs.Guarantees.SharedFetches

open Lib.Machine Lib.Oracle Source Source.Fs Source.Codecs CacheAccounting CacheOwners

def stageOf : Pc → Stage
  | .locking => .locking
  | .parked => .parked
  | .decoding retryInFull => .decoding retryInFull
  | .recording bytes => .recording bytes
  | .publishing bytes => .publishing bytes
  | .dropping _ => .dropping
  | .notifying _ => .notifying

variable (fs : Filesystem)

/-- The call of `fetch` that `decode_block` makes for a query. -/
def callFor (query : BlockQuery) : Call := ⟨query.block, query.needed, fs.blockSize.toNat⟩

/-- The call a thread is in. -/
def callOf (thread : Thread) : Option (Call × Stage) :=
  match thread.program with
  | .ask query _ => some (callFor fs query, stageOf thread.pc)
  | .done _ => none

structure Forgets (s : Shared) (f : Fetches) : Prop where
  inner : f.inner = s.inner
  calls : ∀ t, f.calls t = (s.threads t).bind (callOf fs)

variable {fs}

section Moves

variable {s : Shared} {f : Fetches} (forgets : Forgets fs s f) {t : Nat} {inner : Inner}

include forgets

theorem Forgets.here {thread : Thread} (here : s.threads t = some thread) :
    f.calls t = callOf fs thread := by
  rw [forgets.calls t, here, Option.bind_some]

/-- A thread of a read moves where its call does. -/
theorem Forgets.moved {thread : Thread} {call : Call} {stage : Stage}
    (same : callOf fs thread = some (call, stage)) :
    Forgets fs (s.moved t inner thread) (f.moved t inner call stage) := by
  refine ⟨rfl, fun u => ?_⟩
  by_cases here : u = t
  · subst here
    simp only [Shared.moved, Function.update_self, calls_moved_self, Option.bind_some, same]
  · simp only [Shared.moved, Function.update_of_ne here, calls_moved_ne here, forgets.calls u]

theorem Forgets.returned {thread : Thread} (done : callOf fs thread = none) :
    Forgets fs (s.moved t inner thread) (f.returned t inner) := by
  refine ⟨rfl, fun u => ?_⟩
  by_cases here : u = t
  · subst here
    simp only [Shared.moved, Function.update_self, calls_returned_self, Option.bind_some, done]
  · simp only [Shared.moved, Function.update_of_ne here, calls_returned_ne here, forgets.calls u]

theorem Forgets.log {query : BlockQuery} {answer : Result Bytes} :
    Forgets fs (s.log query answer) f := ⟨forgets.inner, forgets.calls⟩

theorem Forgets.used {block : UInt32} : Forgets fs s (f.used block) :=
  ⟨forgets.inner, forgets.calls⟩

theorem Forgets.wakeAll : Forgets fs s.wakeAll f.wakeAll := by
  refine ⟨forgets.inner, fun t => ?_⟩
  simp only [Shared.wakeAll, Fetches.wakeAll, forgets.calls t]
  cases s.threads t with
  | none => rfl
  | some thread =>
    obtain ⟨origin, program, pc⟩ := thread
    cases program with
    | done result => cases pc <;> rfl
    | ask query next => cases pc <;> rfl

/-- A call returns, and the read either ends or asks for its next block. -/
theorem Forgets.answered {budget : Nat} {thread : Thread} (locking : thread.pc = .locking) :
    ∃ after, Relation.ReflTransGen (Fetches.Step budget) (f.returned t inner) after ∧
      Forgets fs (s.moved t inner thread) after := by
  obtain ⟨origin, program, pc⟩ := thread
  subst locking
  cases program with
  | done result => exact ⟨_, .refl, forgets.returned rfl⟩
  | ask query next =>
    refine ⟨_, .single (.enter (callFor fs query) calls_returned_self), rfl, fun u => ?_⟩
    by_cases here : u = t
    · subst here
      simp only [Shared.moved, Function.update_self, calls_moved_self, Option.bind_some]
      rfl
    · simp only [Shared.moved, Function.update_of_ne here, calls_moved_ne here,
        calls_returned_ne here, forgets.calls u]

end Moves

theorem pc_answer (origin : Reading (Nat × Bytes)) (next : Bytes → Reading (Nat × Bytes))
    (answer : Result Bytes) : (Thread.answer origin next answer).pc = .locking := by
  cases answer <;> rfl

theorem callOf_of_free {s : Shared} {t : Nat} (free : s.Free t) :
    (s.threads t).bind (callOf fs) = none := by
  rcases free with gone | ⟨origin, result, pc, here⟩
  · rw [gone]
    rfl
  · rw [here]
    rfl

section Steps

variable {libs : Libraries} {budget : Nat} {s after : Shared}

/-- Every step of the reads is one of `fetch`, or none, or two when a read goes on. -/
theorem Forgets.step {f : Fetches} (forgets : Forgets fs s f)
    (step : Shared.Step libs fs budget s after) :
    ∃ g, Relation.ReflTransGen (Fetches.Step budget) f g ∧ Forgets fs after g := by
  obtain ⟨inner, calls, uses⟩ := f
  have same : inner = s.inner := forgets.inner
  subst same
  cases step with
  | @start t program free =>
    have idle := (forgets.calls t).trans (callOf_of_free free)
    cases program with
    | done result =>
      refine ⟨_, .refl, rfl, fun u => ?_⟩
      by_cases here : u = t
      · subst here
        simpa [Shared.moved, callOf] using idle
      · simp only [Shared.moved, Function.update_of_ne here]
        exact forgets.calls u
    | ask query next => exact ⟨_, .single (.enter (callFor fs query) idle), forgets.moved rfl⟩
  | @hit t origin next query bytes inner here found =>
    obtain ⟨g, run, still⟩ := @Forgets.answered fs s _ (@Forgets.used fs s _ forgets query.block)
      t inner budget _ (pc_answer origin next (.ok bytes))
    exact ⟨g, .head (.hit (forgets.here here) found) run, still.log⟩
  | wait here found =>
    exact ⟨_, .single (.wait (forgets.here here) found), forgets.moved rfl⟩
  | claim here found =>
    exact ⟨_, .single (.claim (forgets.here here) found), forgets.moved rfl⟩
  | wake here => exact ⟨_, .single (.wake (forgets.here here)), forgets.moved rfl⟩
  | decoded here result =>
    exact ⟨_, .single (.decoded _ (forgets.here here)), forgets.moved rfl⟩
  | failed here result => exact ⟨_, .single (.failed (forgets.here here)), forgets.moved rfl⟩
  | record here => exact ⟨_, .single (.record (forgets.here here)), forgets.moved rfl⟩
  | publish here admitted =>
    exact ⟨_, .single (.publish (forgets.here here) admitted), (forgets.moved rfl).used⟩
  | drop here => exact ⟨_, .single (.drop (forgets.here here)), forgets.moved rfl⟩
  | @notify t origin next query answer here =>
    obtain ⟨g, run, still⟩ :=
      @Forgets.answered fs _ _ forgets.wakeAll t s.inner budget _ (pc_answer origin next answer)
    exact ⟨g, .head (.notify (forgets.here here)) run, still.log⟩
  | clear => exact ⟨_, .single (.clear _), rfl, forgets.calls⟩

/-- Every cache that reads share is one that threads fetch from. -/
theorem forgets_of_reachable (reachable : Shared.Reachable libs fs budget s) :
    ∃ f, Fetches.Reachable budget f ∧ Forgets fs s f := by
  induction reachable with
  | refl => exact ⟨.initial, .refl, rfl, fun _ => rfl⟩
  | tail _ step ih =>
    obtain ⟨f, reached, forgets⟩ := ih
    obtain ⟨g, run, still⟩ := forgets.step step
    exact ⟨g, reached.trans run, still⟩

end Steps

end Rdwarfs.Guarantees.SharedFetches
