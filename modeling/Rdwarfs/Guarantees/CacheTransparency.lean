import Rdwarfs.Guarantees.ReadContract
import Rdwarfs.Source.Fs.SharedCache

/-!
# Readers do not see the shared cache

Whatever threads share a cache and however their steps interleave, an entry is a prefix of
its own block, a marker belongs to the one thread that decodes its block, and a thread that
carries an answer out of `fetch` carries a permitted one. A read whose outcome no permitted
answer can change then ends as it would alone.
-/
namespace Rdwarfs.Guarantees.CacheTransparency

open Lib.Machine Lib.Oracle Lib.Oracle.Prog Source Source.Fs Source.Codecs
open CacheAccounting BlockReads OpenedFilesystem

/-- The answer a thread is about to publish or return. -/
def carried : Pc → Option (Result Bytes)
  | .recording bytes => some (.ok bytes)
  | .publishing bytes => some (.ok bytes)
  | .dropping failure => some (.error failure)
  | .notifying answer => some answer
  | .locking => none
  | .parked => none
  | .decoding _ => none

/-- Between inserting its marker and taking it away again. -/
def inFlight : Pc → Bool
  | .decoding _ => true
  | .recording _ => true
  | .publishing _ => true
  | .dropping _ => true
  | .locking => false
  | .parked => false
  | .notifying _ => false

/-- The block whose marker the thread owns. -/
def owns (thread : Thread) : Option UInt32 :=
  match thread.program with
  | .ask query _ => if inFlight thread.pc then some query.block else none
  | .done _ => none

variable {libs : Libraries} {fs : Filesystem} {budget : Nat} {contents : UInt32 → Bytes}

/-- What is known of one thread. -/
structure ThreadOk (fs : Filesystem) (contents : UInt32 → Bytes) (inner : Inner)
    (thread : Thread) : Prop where
  /-- What the rest of the program may end in, the whole of it may. -/
  residual : ∀ result, Yields (Permits fs contents) thread.program result →
    Yields (Permits fs contents) thread.origin result
  carries : ∀ query next answer, thread.program = .ask query next →
    carried thread.pc = some answer → Permits fs contents query answer
  marked : ∀ block, owns thread = some block → inner.blocks block = some .loading

/-- The invariant of the shared state. -/
structure Sound (fs : Filesystem) (contents : UInt32 → Bytes) (s : Shared) : Prop where
  accounted : Accounted s.inner
  prefixes : Prefixes fs contents s.inner.blocks
  threads : ∀ t thread, s.threads t = some thread → ThreadOk fs contents s.inner thread
  exclusive : ∀ t u thread other block, s.threads t = some thread → s.threads u = some other →
    owns thread = some block → owns other = some block → t = u
  answered : ∀ query answer, (query, answer) ∈ s.answered → Permits fs contents query answer

section Threads

theorem ThreadOk.answer {inner : Inner} {origin : Reading (Nat × Bytes)} {query : BlockQuery}
    {next : Bytes → Reading (Nat × Bytes)} {answer : Result Bytes}
    (residual : ∀ result, Yields (Permits fs contents) (.ask query next) result →
      Yields (Permits fs contents) origin result)
    (permitted : Permits fs contents query answer) :
    ThreadOk fs contents inner (.answer origin next answer) := by
  cases answer with
  | ok bytes =>
    refine ⟨fun result yields => residual result (.answer permitted yields), ?_, ?_⟩
    · simp [Thread.answer, carried]
    · intro block owned
      cases program : next bytes <;> simp [Thread.answer, owns, program, inFlight] at owned
  | error failure =>
    refine ⟨fun result yields => ?_, by simp [Thread.answer], by simp [Thread.answer, owns]⟩
    cases yields
    exact residual _ (.failure permitted)

theorem owns_answer (origin : Reading (Nat × Bytes)) (next : Bytes → Reading (Nat × Bytes))
    (answer : Result Bytes) : owns (.answer origin next answer) = none := by
  cases answer with
  | ok bytes => cases program : next bytes <;> simp [Thread.answer, owns, program, inFlight]
  | error failure => rfl

theorem owns_woken (thread : Thread) : owns thread.woken = owns thread := by
  obtain ⟨origin, program, pc⟩ := thread
  cases pc <;> cases program <;> rfl

theorem ThreadOk.woken {inner : Inner} {thread : Thread} (ok : ThreadOk fs contents inner thread) :
    ThreadOk fs contents inner thread.woken := by
  refine ⟨?_, ?_, fun block owned => ok.marked block (owns_woken thread ▸ owned)⟩
  · obtain ⟨origin, program, pc⟩ := thread
    cases pc <;> exact ok.residual
  · obtain ⟨origin, program, pc⟩ := thread
    cases pc <;> exact ok.carries

/-- Only markers matter to a thread that does not move. -/
theorem ThreadOk.frame {inner after : Inner} {thread : Thread} (ok : ThreadOk fs contents inner thread)
    (kept : ∀ block, owns thread = some block → inner.blocks block = some .loading →
      after.blocks block = some .loading) : ThreadOk fs contents after thread :=
  ⟨ok.residual, ok.carries, fun block owned => kept block owned (ok.marked block owned)⟩

end Threads

section Moves

variable {s : Shared}

theorem Sound.wakeAll (sound : Sound fs contents s) : Sound fs contents s.wakeAll := by
  have before : ∀ t thread, s.wakeAll.threads t = some thread →
      ∃ was, s.threads t = some was ∧ thread = was.woken := by
    intro t thread found
    simp only [Shared.wakeAll, Option.map_eq_some_iff] at found
    obtain ⟨was, here, rfl⟩ := found
    exact ⟨was, here, rfl⟩
  refine ⟨sound.accounted, sound.prefixes, fun t thread found => ?_, ?_, sound.answered⟩
  · obtain ⟨was, here, rfl⟩ := before t thread found
    exact (sound.threads t was here).woken
  · intro t u thread other block found foundOther owned ownedOther
    obtain ⟨was, here, rfl⟩ := before t thread found
    obtain ⟨wasOther, hereOther, rfl⟩ := before u other foundOther
    exact sound.exclusive t u was wasOther block here hereOther (owns_woken was ▸ owned)
      (owns_woken wasOther ▸ ownedOther)

theorem Sound.log (sound : Sound fs contents s) {query : BlockQuery} {answer : Result Bytes}
    (permitted : Permits fs contents query answer) : Sound fs contents (s.log query answer) := by
  refine ⟨sound.accounted, sound.prefixes, sound.threads, sound.exclusive, ?_⟩
  intro other result member
  rcases List.mem_cons.mp member with same | member
  · cases same
    exact permitted
  · exact sound.answered other result member

/-- One thread moves: its new state is in order, and the markers of the others stay. -/
theorem Sound.moved (sound : Sound fs contents s) {t : Nat} {inner : Inner} {thread : Thread}
    (accounted : Accounted inner) (prefixes : Prefixes fs contents inner.blocks)
    (ok : ThreadOk fs contents inner thread)
    (others : ∀ u other block, u ≠ t → s.threads u = some other → owns other = some block →
      s.inner.blocks block = some .loading → inner.blocks block = some .loading)
    (alone : ∀ u other block, u ≠ t → s.threads u = some other → owns other = some block →
      owns thread ≠ some block) :
    Sound fs contents (s.moved t inner thread) := by
  refine ⟨accounted, prefixes, fun u other found => ?_, ?_, sound.answered⟩
  · by_cases same : u = t
    · subst same
      simp only [Shared.moved, Function.update_self, Option.some.injEq] at found
      exact found ▸ ok
    · simp only [Shared.moved, Function.update_of_ne same] at found
      exact (sound.threads u other found).frame fun block owned =>
        others u other block same found owned
  · intro u v first second block foundU foundV ownedU ownedV
    by_cases sameU : u = t
    · subst sameU
      by_cases sameV : v = u
      · exact sameV.symm
      · simp only [Shared.moved, Function.update_self, Option.some.injEq] at foundU
        simp only [Shared.moved, Function.update_of_ne sameV] at foundV
        exact absurd (foundU ▸ ownedU) (alone v second block sameV foundV ownedV)
    · simp only [Shared.moved, Function.update_of_ne sameU] at foundU
      by_cases sameV : v = t
      · subst sameV
        simp only [Shared.moved, Function.update_self, Option.some.injEq] at foundV
        exact absurd (foundV ▸ ownedV) (alone u first block sameU foundU ownedU)
      · simp only [Shared.moved, Function.update_of_ne sameV] at foundV
        exact sound.exclusive u v first second block foundU foundV ownedU ownedV

/-- A thread that moves without touching the entries and without a new marker. -/
theorem Sound.moved_kept (sound : Sound fs contents s) {t : Nat} {inner : Inner}
    {was thread : Thread} (here : s.threads t = some was) (accounted : Accounted inner)
    (same : inner.blocks = s.inner.blocks) (ok : ThreadOk fs contents inner thread)
    (owned : ∀ block, owns thread = some block → owns was = some block) :
    Sound fs contents (s.moved t inner thread) := by
  refine sound.moved accounted (same ▸ sound.prefixes) ok ?_ ?_
  · intro u other block _ _ _ marked
    rw [same]
    exact marked
  · intro u other block ne found ownedOther ownedHere
    exact ne (sound.exclusive u t other was block found here ownedOther (owned block ownedHere))

/-- A marker of another thread is for another block. -/
theorem Sound.apart (sound : Sound fs contents s) {t u : Nat} {thread other : Thread}
    {mine block : UInt32} (ne : u ≠ t) (here : s.threads t = some thread)
    (found : s.threads u = some other) (owned : owns other = some block)
    (ownedHere : owns thread = some mine) : block ≠ mine := by
  rintro rfl
  exact ne (sound.exclusive u t other thread block found here owned ownedHere)

end Moves

section Steps

variable {s after : Shared}

/-- Every step keeps the invariant. -/
theorem Sound.step (decodes : DecodesTo libs fs contents) (sound : Sound fs contents s)
    (step : Shared.Step libs fs budget s after) : Sound fs contents after := by
  cases step with
  | @start t program free =>
    have ok : ThreadOk fs contents s.inner ⟨program, program, .locking⟩ :=
      ⟨fun _ yields => yields, by simp [carried], by cases program <;> simp [owns, inFlight]⟩
    refine sound.moved sound.accounted sound.prefixes ok (fun _ _ _ _ _ _ marked => marked) ?_
    cases program <;> simp [owns, inFlight]
  | @hit t origin next query bytes inner here found =>
    obtain ⟨_, _, looked, kept, sees⟩ := sound.accounted.lookup query.block query.needed
    rw [found] at looked
    cases looked
    obtain ⟨ready, long, same⟩ := sees
    have permitted := sound.prefixes.hit ready long
    refine Sound.log (sound.moved_kept here kept same
      (.answer (sound.threads t _ here).residual permitted) ?_) permitted
    simp [owns_answer]
  | @wait t origin next query inner here found =>
    obtain ⟨_, _, looked, kept, sees⟩ := sound.accounted.lookup query.block query.needed
    rw [found] at looked
    cases looked
    obtain ⟨_, rfl⟩ := sees
    exact sound.moved_kept here kept rfl
      ⟨(sound.threads t _ here).residual, by simp [carried], by simp [owns, inFlight]⟩
      (by simp [owns, inFlight])
  | @claim t origin next query retryInFull inner here found =>
    obtain ⟨_, _, looked, kept, sees⟩ := sound.accounted.lookup query.block query.needed
    rw [found] at looked
    cases looked
    obtain ⟨unmarked, blocks⟩ := sees
    refine sound.moved kept (blocks ▸ sound.prefixes.update (by simp))
      ⟨(sound.threads t _ here).residual, by simp [carried], ?_⟩ ?_ ?_
    · simp [owns, inFlight, blocks]
    · intro u other block _ _ _ marked
      rw [blocks]
      by_cases same : block = query.block
      · simp [same]
      · rw [Function.update_of_ne same]
        exact marked
    · intro u other block _ foundOther owned ownedHere
      simp only [owns, inFlight, if_true, Option.some.injEq] at ownedHere
      exact unmarked (ownedHere ▸ (sound.threads u other foundOther).marked block owned)
  | @wake t origin next query here =>
    exact sound.moved_kept here sound.accounted rfl
      ⟨(sound.threads t _ here).residual, by simp [carried], by simp [owns, inFlight]⟩
      (by simp [owns, inFlight])
  | @decoded t origin next query retryInFull bytes here result =>
    have ok := sound.threads t _ here
    have permitted := result ▸ decodeRecord_permits decodes query retryInFull
    refine sound.moved_kept here sound.accounted rfl ⟨ok.residual, ?_, ok.marked⟩ fun _ owned => owned
    rintro _ _ _ ⟨⟩ ⟨⟩
    exact permitted
  | @failed t origin next query retryInFull failure here result =>
    have ok := sound.threads t _ here
    have permitted := result ▸ decodeRecord_permits decodes query retryInFull
    refine sound.moved_kept here sound.accounted rfl ⟨ok.residual, ?_, ok.marked⟩ fun _ owned => owned
    rintro _ _ _ ⟨⟩ ⟨⟩
    exact permitted
  | @record t origin next query bytes here =>
    have ok := sound.threads t _ here
    obtain ⟨kept, same⟩ :=
      sound.accounted.recordDecoded query.block bytes.length fs.blockSize.toNat
    refine sound.moved_kept here kept same ⟨ok.residual, ok.carries, ?_⟩ fun _ owned => owned
    rw [same]
    exact ok.marked
  | @publish t origin next query bytes inner here admitted =>
    have ok := sound.threads t _ here
    have permitted := ok.carries query next (.ok bytes) rfl rfl
    obtain ⟨_, looked, kept, own, others⟩ := sound.accounted.admitBytes query.block bytes budget
    rw [admitted] at looked
    cases looked
    refine sound.moved kept (sound.prefixes.admitBytes permitted own others)
      ⟨ok.residual, ?_, by simp [owns, inFlight]⟩ ?_ (by simp [owns, inFlight])
    · rintro _ _ _ ⟨⟩ ⟨⟩
      exact permitted
    · intro u other block ne found owned marked
      have apart : block ≠ query.block :=
        sound.apart ne here found owned (by simp [owns, inFlight])
      rcases others block apart with same | ⟨_, old, ready⟩
      · rw [same]
        exact marked
      · rw [marked] at ready
        cases ready
  | @drop t origin next query failure here =>
    have ok := sound.threads t _ here
    have permitted := ok.carries query next (.error failure) rfl rfl
    have marker := ok.marked query.block (by simp [owns, inFlight])
    refine sound.moved (sound.accounted.update (by simp [marker]) (by simp))
      (sound.prefixes.update (by simp)) ⟨ok.residual, ?_, by simp [owns, inFlight]⟩ ?_
      (by simp [owns, inFlight])
    · rintro _ _ _ ⟨⟩ ⟨⟩
      exact permitted
    · intro u other block ne found owned marked
      have apart : block ≠ query.block :=
        sound.apart ne here found owned (by simp [owns, inFlight])
      exact (Function.update_of_ne apart _ _).trans marked
  | @notify t origin next query answer here =>
    have ok := sound.threads t _ here
    have permitted := ok.carries query next answer rfl rfl
    have hereWoken : s.wakeAll.threads t = some ⟨origin, .ask query next, .notifying answer⟩ := by
      simp [Shared.wakeAll, here, Thread.woken]
    refine Sound.log (sound.wakeAll.moved_kept hereWoken sound.accounted rfl
      (.answer ok.residual permitted) ?_) permitted
    simp [owns_answer]
  | clear =>
    obtain ⟨accounted, keeps⟩ := @accounted_clear s.inner
    exact ⟨accounted, sound.prefixes.mono keeps, fun t thread found =>
      (sound.threads t thread found).frame fun block _ marked => keeps.loading marked,
      sound.exclusive, sound.answered⟩

/-- Every state of every run is sound. -/
theorem sound_of_reachable (decodes : DecodesTo libs fs contents)
    (reachable : Shared.Reachable libs fs budget s) : Sound fs contents s := by
  induction reachable with
  | refl =>
    exact ⟨accounted_empty, by simp [Prefixes, Shared.initial, Inner.empty],
      by simp [Shared.initial], by simp [Shared.initial], by simp [Shared.initial]⟩
  | tail _ step sound => exact sound.step decodes step

/-- No critical section of a reachable state panics. -/
theorem sections_return (decodes : DecodesTo libs fs contents)
    (reachable : Shared.Reachable libs fs budget s) (block : UInt32) :
    (∀ needed, ∃ found inner, s.inner.lookup block needed = .ok (found, inner)) ∧
      ∀ bytes, ∃ inner, s.inner.admitBytes block bytes budget = .ok inner := by
  have accounted := (sound_of_reachable decodes reachable).accounted
  constructor
  · intro needed
    obtain ⟨found, inner, looked, _⟩ := accounted.lookup block needed
    exact ⟨found, inner, looked⟩
  · intro bytes
    obtain ⟨inner, admitted, _⟩ := accounted.admitBytes block bytes budget
    exact ⟨inner, admitted⟩

/-- The cache is invisible: blocks come back as long enough prefixes, entries are prefixes,
and a finished read has the result of the same call alone on a new cache. -/
theorem cache_invisible (decodes : DecodesTo libs fs contents)
    (reachable : Shared.Reachable libs fs budget s) :
    (∀ query bytes, (query, .ok bytes) ∈ s.answered →
      bytes <+: contents query.block ∧
        min query.needed (contents query.block).length ≤ bytes.length) ∧
    (∀ block bytes, s.inner.blocks block = some (.ready bytes) → bytes <+: contents block) ∧
    ∀ t inode offset buf result pc,
      s.threads t = some ⟨fs.readInto inode offset buf, .done result, pc⟩ →
      ∃ alone, (fs.readInto inode offset buf).run (fs.decodeBlock libs budget) .empty =
        some (result, alone) := by
  have sound := sound_of_reachable decodes reachable
  refine ⟨fun query bytes member => ?_, fun block bytes ready => ?_, ?_⟩
  · exact (permits_ok.mp (sound.answered query _ member)).2
  · exact (sound.prefixes block bytes ready).2
  · intro t inode offset buf result pc here
    have yields := (sound.threads t _ here).residual result (.done result)
    have same := readInto_determined inode offset buf result yields
    obtain ⟨alone, ran, _⟩ := readInto_alone decodes budget serves_empty inode offset buf
    exact ⟨alone, same ▸ ran⟩

section Run

/-- A run in which one thread reads two bytes of `named` through a cache of budget 0. The block is
decoded in part. -/
theorem named_run :
    ∃ s, Shared.Reachable namedLibraries named 0 s ∧
      s.threads 0 = some ⟨named.readInto 1 0 [9, 9], .done (.ok (2, [104, 101])), .locking⟩ := by
  obtain ⟨next, asks, ends⟩ : ∃ next, named.readInto 1 0 [9, 9] = .ask ⟨0, 2⟩ next ∧
      next helloBlock = .done (.ok (2, [104, 101])) := ⟨_, rfl, rfl⟩
  have decoded : named.decodeRecord namedLibraries ⟨0, 2⟩ false = .ok helloBlock := by
    decide +kernel
  rw [asks, ← ends]
  have started : Shared.Reachable namedLibraries named 0 _ :=
    Relation.ReflTransGen.refl.tail (.start (t := 0) (.ask ⟨0, 2⟩ next) (Or.inl rfl))
  have claimed := started.tail (.claim (t := 0) rfl rfl)
  have recorded := (claimed.tail (.decoded (t := 0) rfl decoded)).tail (.record (t := 0) rfl)
  have published := recorded.tail (.publish (t := 0) rfl rfl)
  exact ⟨_, published.tail (.notify (t := 0) rfl), rfl⟩

theorem cache_invisible_named :
    ∃ alone, (named.readInto 1 0 [9, 9]).run (named.decodeBlock namedLibraries 0) .empty =
      some (.ok (2, [104, 101]), alone) := by
  obtain ⟨_, reachable, here⟩ := named_run
  exact (cache_invisible ReadContract.named_decodes reachable).2.2 0 1 0 [9, 9] _ _ here

end Run

end Steps

end Rdwarfs.Guarantees.CacheTransparency
