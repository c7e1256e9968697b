import Rdwarfs.Guarantees.AccessorSafety
import Rdwarfs.Guarantees.ExtractContainment
import Rdwarfs.Guarantees.ExtractRuns
import Mathlib.Data.List.Nodup

/-!
# What an extraction that goes on counts

With `continue_on_error` every operation on an entry ends in a counter, and only the entries
of phase 2 are come to twice. The count of failures is therefore the number of entries that
were not placed, and exactly when no write of phase 2 failed.
-/
namespace Rdwarfs.Guarantees.FailureCounts

open Lib.Machine Lib.Oracle Lib.UnixPath Lib.Interleaving Source Source.Fs Source.Codecs
open Extraction ExtractRuns

/-- How many operations failed. -/
def failures (attempts : List (Nat × Bool)) : Nat := attempts.countP fun attempt => !attempt.2

/-- `later` has counted the attempts `added` on top of `tally`. -/
structure Grew (tally later : Tally) (added : List (Nat × Bool)) : Prop where
  attempts : later.attempts = tally.attempts ++ added
  errors : later.errors = tally.errors + failures added

theorem Grew.refl (tally : Tally) : Grew tally tally [] := ⟨by simp, rfl⟩

theorem Grew.trans {tally between later : Tally} {first second : List (Nat × Bool)}
    (one : Grew tally between first) (two : Grew between later second) :
    Grew tally later (first ++ second) where
  attempts := by rw [two.attempts, one.attempts, List.append_assoc]
  errors := by
    rw [two.errors, one.errors, failures, failures, failures, List.countP_append, Nat.add_assoc]

/-- Whether an operation succeeded. -/
def succeeded {α : Type} : Except Error α → Bool
  | .ok _ => true
  | .error _ => false

/-- The positions of the entries that a phase comes to. -/
def positions (comes : InodeKind → Bool) (entries : List (WalkEntry × Nat)) : List Nat :=
  (entries.filter fun entry => comes entry.1.kind).map (·.2)

/-- What phase 3 adds: an attempt on every entry but the directories, and a success where the
map already names the entry's own place. -/
structure Placed (fs : Filesystem) (dest : Path) (entries : List (WalkEntry × Nat))
    (written : UInt32 → Option Place) (tally : Tally) (result : Result Tally) : Prop where
  counts : ∃ later added, result = .ok later ∧ Grew tally later added ∧
    added.map (·.1) = positions (· ≠ .directory) entries ∧
    ∀ entry position content, (entry, position) ∈ entries → entry.kind = .regular →
      fs.contentId entry.inode = .ok content → written content = some (targetOf dest entry) →
      (position, true) ∈ added

/-- One entry more in front. -/
theorem Placed.cons {fs : Filesystem} {dest : Path} {entry : WalkEntry} {position : Nat}
    {rest : List (WalkEntry × Nat)} {written changed : UInt32 → Option Place}
    {tally between : Tally} {result : Result Tally} {success : Bool} (other : entry.kind ≠ .directory)
    (grew : Grew tally between [(position, success)])
    (own : entry.kind = .regular → ∀ content, fs.contentId entry.inode = .ok content →
      written content = some (targetOf dest entry) → success = true)
    (kept : ∀ content place, written content = some place → changed content = some place)
    (placed : Placed fs dest rest changed between result) :
    Placed fs dest ((entry, position) :: rest) written tally result := by
  obtain ⟨later, added, same, more, counted, named⟩ := placed
  refine ⟨later, _, same, grew.trans more, ?_, ?_⟩
  · simp [positions, other, counted]
  · intro found place content member regular known written
    rcases List.mem_cons.mp member with here | later
    · cases here
      rw [own regular content known written]
      exact List.mem_cons_self
    · exact List.mem_append_right _ (named found place content later regular known (kept _ _ written))

/-- Phase 3 panics: on a symlink, or on a file that is in the map under no name. -/
def Stuck (fs : Filesystem) (entries : List (WalkEntry × Nat)) (written : UInt32 → Option Place)
    (result : Result Tally) : Prop :=
  result = panicked ∧ ∃ entry ∈ entries, fs.readLink entry.1.inode = panicked ∨
    entry.1.kind = .regular ∧ ∃ content, fs.contentId entry.1.inode = .ok content ∧
      written content = none

theorem Stuck.cons {fs : Filesystem} {entry : WalkEntry × Nat} {rest : List (WalkEntry × Nat)}
    {written changed : UInt32 → Option Place} {result : Result Tally}
    (kept : ∀ content place, written content = some place → changed content = some place)
    (stuck : Stuck fs rest changed result) : Stuck fs (entry :: rest) written result := by
  obtain ⟨same, other, member, cause⟩ := stuck
  refine ⟨same, other, List.mem_cons_of_mem _ member, cause.imp_right ?_⟩
  rintro ⟨regular, content, known, absent⟩
  refine ⟨regular, content, known, ?_⟩
  cases named : written content with
  | none => rfl
  | some place => rw [kept content place named] at absent; cases absent

section Calls

variable {S : Type} {world : World Request Reply S} {before after : S}

theorem call_calm {request : Request} : ¬ Runs world (call request) before panicked after := by
  rintro ran
  obtain ⟨reply, _, ⟨_, absurd_⟩ | ⟨_, absurd_⟩⟩ := runs_call.mp ran
  · cases absurd_
  · cases absurd_

theorem createParent_calm {target : Place} :
    ¬ Runs world (createParent target) before panicked after := by
  unfold createParent
  split
  · exact call_calm
  · rintro ⟨⟩

theorem linkHardlink_calm {source target : Place} :
    ¬ Runs world (linkHardlink source target) before panicked after := by
  rintro ran
  rcases runs_bind.mp ran with ⟨_, _, _, linked⟩ | ⟨failure, parent, same⟩
  · exact call_calm linked
  · cases same
    exact createParent_calm parent

theorem writeSymlink_panicked {fs : Filesystem} {dest : Path} {entry : WalkEntry}
    (ran : Runs world (writeSymlink fs dest entry) before panicked after) :
    fs.readLink entry.inode = panicked := by
  rcases runs_lift_bind.mp ran with ⟨link, _, ran⟩ | ⟨failure, stopped, same, _⟩
  · rcases runs_bind.mp ran with ⟨_, _, _, linked⟩ | ⟨failure, parent, same⟩
    · exact absurd linked call_calm
    · cases same
      exact absurd parent createParent_calm
  · cases same
    exact stopped

end Calls

section Steps

variable {options : ExtractOptions} (persist : options.continueOnError = true)
include persist

theorem settle_grew (tally : Tally) (position : Nat) (count : ExtractStats → ExtractStats)
    (outcome : Except Error Unit) :
    ∃ later, tally.settle options position count outcome = .ok later ∧
      Grew tally later [(position, succeeded outcome)] := by
  cases outcome with
  | ok done => exact ⟨_, rfl, rfl, by simp [failures, succeeded]⟩
  | error reason => exact ⟨_, if_pos persist, rfl, by simp [failures, succeeded]⟩

variable {S : Type} {world : World Request Reply S} {before after : S}

/-- One operation and what is counted of it; a panic is not counted. -/
theorem runs_settled {program : Extracting Unit} {tally : Tally} {position : Nat}
    {count : ExtractStats → ExtractStats} {next : Except Error Unit → Tally → Extracting Tally}
    {result : Result Tally}
    (ran : Runs world (attempted program >>= fun outcome =>
      Prog.lift (tally.settle options position count outcome) >>= next outcome) before result after) :
    (∃ outcome between later, Grew tally later [(position, succeeded outcome)] ∧
      Runs world (next outcome later) between result after) ∨
    Runs world program before panicked after ∧ result = panicked := by
  rcases runs_bind.mp ran with ⟨outcome, between, tried, ran⟩ | ⟨failure, tried, same⟩
  · left
    obtain ⟨later, settled, grew⟩ := settle_grew persist tally position count outcome
    rw [settled, Prog.lift_ok_bind] at ran
    exact ⟨outcome, between, later, grew, ran⟩
  · right
    obtain ⟨ended, tried, known⟩ := runs_attempted.mp tried
    obtain ⟨rfl, stopped⟩ := attempt_eq_error.mp known.symm
    rw [stopped] at same
    exact ⟨tried, same⟩

theorem makeDirectories_grew {dest : Path} {entries : List (WalkEntry × Nat)} {tally : Tally}
    {result : Result Tally}
    (ran : Runs world (Filesystem.makeDirectories dest options entries tally) before result after) :
    ∃ later added, result = .ok later ∧ Grew tally later added ∧
      added.map (·.1) = positions (· = .directory) entries := by
  induction entries generalizing tally before with
  | nil =>
    obtain ⟨rfl, rfl⟩ := runs_done.mp ran
    exact ⟨tally, [], rfl, .refl tally, rfl⟩
  | cons numbered rest ih =>
    obtain ⟨entry, position⟩ := numbered
    rw [Filesystem.makeDirectories] at ran
    by_cases directory : entry.kind = .directory
    · rw [if_neg (not_not.mpr directory)] at ran
      rcases runs_settled persist ran with ⟨outcome, between, settled, grew, ran⟩ | ⟨tried, _⟩
      · obtain ⟨later, added, same, more, counted⟩ := ih ran
        refine ⟨later, _, same, grew.trans more, ?_⟩
        simp [positions, directory, counted]
      · exact absurd tried call_calm
    · rw [if_pos directory] at ran
      obtain ⟨later, added, same, more, counted⟩ := ih ran
      refine ⟨later, added, same, more, ?_⟩
      simp [positions, directory, counted]

variable {fs : Filesystem} {dest : Path}

theorem placeOthers_placed {entries : List (WalkEntry × Nat)} {written : UInt32 → Option Place}
    {tally : Tally} {result : Result Tally}
    (contents : ∀ entry position, (entry, position) ∈ entries → entry.kind = .regular →
      ∃ content, fs.contentId entry.inode = .ok content)
    (ran : Runs world (fs.placeOthers dest options entries written tally) before result after) :
    Placed fs dest entries written tally result ∨ Stuck fs entries written result := by
  induction entries generalizing tally written before with
  | nil =>
    obtain ⟨rfl, rfl⟩ := runs_done.mp ran
    exact Or.inl ⟨tally, [], rfl, .refl tally, rfl, by simp⟩
  | cons numbered rest ih =>
    obtain ⟨entry, position⟩ := numbered
    have onward := fun {written tally before} => @ih before written tally
      fun other place member => contents other place (List.mem_cons_of_mem _ member)
    rw [Filesystem.placeOthers] at ran
    cases kind : entry.kind with
    | directory =>
      simp only [kind] at ran
      refine (onward ran).imp ?_ (Stuck.cons fun _ _ same => same)
      rintro ⟨later, added, same, more, counted, named⟩
      refine ⟨later, added, same, more, by simp [positions, kind, counted], ?_⟩
      intro found place content member regular
      rcases List.mem_cons.mp member with here | later
      · cases here
        rw [kind] at regular
        cases regular
      · exact named found place content later regular
    | regular =>
      obtain ⟨content, known⟩ := contents entry position (by simp) kind
      have sameContent : ∀ {other}, fs.contentId entry.inode = .ok other → other = content := by
        intro other found
        rw [known, Except.ok.injEq] at found
        exact found.symm
      simp only [kind, known, Prog.lift_ok_bind] at ran
      cases named : written content with
      | some first =>
        simp only [named] at ran
        by_cases here : first = targetOf dest entry
        · rw [if_pos here] at ran
          exact (onward ran).imp (.cons (by simp [kind]) ⟨rfl, by simp [failures]⟩
            (fun _ _ _ _ => rfl) (fun _ _ same => same)) (Stuck.cons fun _ _ same => same)
        · have apart : entry.kind = .regular → ∀ other, fs.contentId entry.inode = .ok other →
              written other = some (targetOf dest entry) → False := by
            intro _ other found own
            rw [sameContent found, named, Option.some.injEq] at own
            exact here own
          rw [if_neg here] at ran
          by_cases link : options.hardlinkShared
          · rw [if_pos link] at ran
            rcases runs_settled persist ran with ⟨outcome, between, later, grew, ran⟩ | ⟨tried, _⟩
            · exact (onward ran).imp (.cons (by simp [kind]) grew
                (fun regular other found own => (apart regular other found own).elim)
                (fun _ _ same => same)) (Stuck.cons fun _ _ same => same)
            · exact absurd tried linkHardlink_calm
          · rw [if_neg link] at ran
            rcases runs_settled persist ran with ⟨outcome, between, later, grew, ran⟩ | ⟨tried, _⟩
            · exact (onward ran).imp (.cons (by simp [kind]) grew
                (fun regular other found own => (apart regular other found own).elim)
                (fun _ _ same => same)) (Stuck.cons fun _ _ same => same)
            · exact absurd tried call_calm
      | none =>
        simp only [named] at ran
        rcases runs_settled persist ran with ⟨outcome, between, later, grew, ran⟩ | ⟨_, same⟩
        · refine (onward ran).imp (.cons (by simp [kind]) grew ?fresh ?kept) (Stuck.cons ?kept)
          case fresh =>
            intro _ other found own
            rw [sameContent found, named] at own
            cases own
          case kept =>
            intro other place own
            cases outcome with
            | ok done =>
              have differs : other ≠ content := by
                rintro rfl
                rw [named] at own
                cases own
              exact (Function.update_of_ne differs ..).trans own
            | error reason => exact own
        · exact Or.inr ⟨same, _, List.mem_cons_self, Or.inr ⟨kind, content, known, named⟩⟩
    | symlink =>
      simp only [kind] at ran
      rcases runs_settled persist ran with ⟨outcome, between, later, grew, ran⟩ | ⟨tried, same⟩
      · exact (onward ran).imp (.cons (by simp [kind]) grew (by simp [kind])
          (fun _ _ same => same)) (Stuck.cons fun _ _ same => same)
      · exact Or.inr ⟨same, _, List.mem_cons_self, Or.inl (writeSymlink_panicked tried)⟩
    | charDevice | blockDevice | fifo | socket | unknown =>
      obtain ⟨later, settled, grew⟩ := settle_grew persist tally position
        (fun stats => { stats with skipped := stats.skipped + 1 }) (.ok ())
      simp only [kind, settled, Prog.lift_ok_bind] at ran
      exact (onward ran).imp (.cons (by simp [kind]) grew (by simp [kind])
        (fun _ _ same => same)) (Stuck.cons fun _ _ same => same)

theorem gather_grew (outcomes : List ((WalkEntry × Nat) × Except Error Nat)) (tally : Tally) :
    ∃ later, Filesystem.gather options outcomes tally = .ok later ∧
      Grew tally later (outcomes.map fun outcome => (outcome.1.2, succeeded outcome.2)) := by
  induction outcomes generalizing tally with
  | nil => exact ⟨tally, rfl, .refl tally⟩
  | cons first rest ih =>
    obtain ⟨⟨entry, position⟩, outcome⟩ := first
    obtain ⟨between, settled, grew⟩ := settle_grew persist tally position
      (fun stats => { stats with files := stats.files + 1 }) (outcome.map fun _ => ())
    obtain ⟨later, gathered, more⟩ := ih between
    have same : succeeded (outcome.map fun _ => ()) = succeeded outcome := by
      cases outcome <;> rfl
    rw [same] at grew
    exact ⟨later, by rw [Filesystem.gather, settled, ok_bind, gathered], grew.trans more⟩

end Steps

section Counting

theorem failures_append (one other : List (Nat × Bool)) :
    failures (one ++ other) = failures one + failures other := List.countP_append

/-- Position `k` had no success. -/
def Missing (attempts : List (Nat × Bool)) (k : Nat) : Prop := (k, true) ∉ attempts

instance (attempts : List (Nat × Bool)) (k : Nat) : Decidable (Missing attempts k) :=
  inferInstanceAs (Decidable (¬ _))

def missing (count : Nat) (attempts : List (Nat × Bool)) : Nat :=
  (List.range count).countP fun k => Missing attempts k

variable {count : Nat} {one main : List (Nat × Bool)}

/-- Where `main` has every position once, the missing ones are among its failures. -/
theorem missing_eq (all : List (Nat × Bool)) (once : (main.map (·.1)).Perm (List.range count)) :
    missing count all = main.countP fun attempt => Missing all attempt.1 := by
  rw [missing, ← once.countP_eq, List.countP_map]
  rfl

theorem missing_le {all : List (Nat × Bool)} (once : (main.map (·.1)).Perm (List.range count))
    (inside : ∀ attempt ∈ main, attempt ∈ all) : missing count all ≤ failures main := by
  rw [missing_eq all once, failures]
  apply List.countP_mono_left
  intro attempt member absent
  obtain ⟨k, success⟩ := attempt
  cases success with
  | false => rfl
  | true => exact absurd (inside _ member) (of_decide_eq_true absent)

/-- If no other attempt has a success that `main` lacks, they are all its failures. -/
theorem missing_eq_failures {all : List (Nat × Bool)}
    (once : (main.map (·.1)).Perm (List.range count)) (inside : ∀ attempt ∈ main, attempt ∈ all)
    (main_ : ∀ k, (k, true) ∈ all → (k, true) ∈ main) : missing count all = failures main := by
  rw [missing_eq all once, failures]
  apply List.countP_congr
  intro attempt member
  obtain ⟨k, success⟩ := attempt
  cases success with
  | true => simp [Missing, inside _ member]
  | false =>
    have unique : (k, true) ∉ main := by
      intro also
      have distinct : (main.map (·.1)).Nodup := once.nodup_iff.mpr List.nodup_range
      have same := List.inj_on_of_nodup_map distinct member also rfl
      simp at same
    have absent : Missing all k := fun success => unique (main_ k success)
    simp [absent]

theorem positions_perm (selected : List WalkEntry) :
    (positions (· = .directory) selected.zipIdx ++
      positions (· ≠ .directory) selected.zipIdx).Perm (List.range selected.length) := by
  have split := List.filter_append_perm (fun entry : WalkEntry × Nat => entry.1.kind = .directory)
    selected.zipIdx
  have perm := split.map (·.2)
  rw [List.map_append] at perm
  have order : selected.zipIdx.map (·.2) = List.range selected.length := by
    rw [List.range_eq_range']
    exact List.zipIdx_map_snd ..
  rw [order] at perm
  simpa [positions] using perm

end Counting

/-- The error for `count` failures. -/
def failed (count : Nat) : Error := .decode "fs-extract" s!"{count} entries failed during extraction"

theorem failed_inj {one other : Nat} (same : failed one = failed other) : one = other := by
  simp only [failed, Error.decode.injEq] at same
  have shown : one.repr = other.repr := (String.append_left_inj _).mp same.2
  have digits : Nat.toDigits 10 one = Nat.toDigits 10 other := String.ofList_injective shown
  rw [← Nat.ofDigitChars_ten_toDigits (n := one), digits, Nat.ofDigitChars_ten_toDigits]

theorem conclude_eq (tally : Tally) :
    tally.conclude = if tally.errors = 0 then .ok tally.stats else fail (failed tally.errors) := by
  by_cases clean : tally.errors = 0
  · rw [Tally.conclude, refuseIf_of_not (by omega), if_pos clean]
    rfl
  · rw [Tally.conclude, refuseIf_of (by omega), if_neg clean]
    rfl

/-- Nothing selected was passed by, and the final error names the number of entries that no
operation placed; without such entries there is no error. -/
def AttemptsAll (count : Nat) (outcome : Result Tally) : Prop :=
  ∃ tally, outcome = .ok tally ∧ (∀ k < count, ∃ success, (k, success) ∈ tally.attempts) ∧
    (outcome >>= Tally.conclude) =
      if missing count tally.attempts = 0 then .ok tally.stats
      else fail (failed (missing count tally.attempts))

theorem conclude_iff {tally : Tally} {count : Nat} :
    tally.conclude = (if count = 0 then .ok tally.stats else fail (failed count)) ↔
      tally.errors = count := by
  rw [conclude_eq]
  constructor
  · intro same
    by_cases clean : tally.errors = 0
    · by_cases none_ : count = 0
      · omega
      · rw [if_pos clean, if_neg none_] at same
        cases same
    · by_cases none_ : count = 0
      · rw [if_neg clean, if_pos none_] at same
        cases same
      · rw [if_neg clean, if_neg none_, Except.error.injEq, Failure.err.injEq] at same
        exact failed_inj same
  · rintro rfl
    rfl

theorem returned_eq_ok {outcome : Except Error Nat} :
    (∃ bytes, returned outcome = .ok bytes) ↔ succeeded outcome = true := by
  cases outcome <;> simp [returned, succeeded]

/-- The attempts of phase 2. -/
def writeAttempts (writers : List (WalkEntry × Nat)) (outcomes : List (Except Error Nat)) :
    List (Nat × Bool) :=
  (writers.zip outcomes).map fun outcome => (outcome.1.2, succeeded outcome.2)

theorem failures_writeAttempts {writers : List (WalkEntry × Nat)} {outcomes : List (Except Error Nat)}
    (each : outcomes.length = writers.length) :
    failures (writeAttempts writers outcomes) = 0 ↔
      ∀ write ∈ outcomes.map returned, ∃ bytes, write = .ok bytes := by
  have column : (writers.zip outcomes).map Prod.snd = outcomes :=
    List.map_snd_zip (Nat.le_of_eq each)
  have count : failures (writeAttempts writers outcomes) =
      outcomes.countP fun outcome => !succeeded outcome := by
    conv_rhs => rw [← column]
    rw [failures, writeAttempts, List.countP_map, List.countP_map]
    rfl
  rw [count, List.countP_eq_zero]
  constructor
  · intro clean write member
    obtain ⟨outcome, known, rfl⟩ := List.mem_map.mp member
    exact returned_eq_ok.mpr (by simpa using clean outcome known)
  · intro clean outcome member
    simp [returned_eq_ok.mp (clean _ (List.mem_map_of_mem member))]

theorem mem_writeAttempts {writers : List (WalkEntry × Nat)}
    {outcomes : List (Except Error Nat)} {k : Nat} (success : (k, true) ∈ writeAttempts writers outcomes) :
    ∃ (i : Nat) (entry : WalkEntry) (bytes : Nat), writers[i]? = some (entry, k) ∧
      (outcomes.map returned)[i]? = some (.ok bytes) := by
  obtain ⟨⟨⟨entry, position⟩, outcome⟩, member, same⟩ := List.mem_map.mp success
  obtain ⟨rfl, ended⟩ := Prod.mk.inj same
  obtain ⟨bytes, ended⟩ := returned_eq_ok.mpr ended
  obtain ⟨i, here⟩ := List.mem_iff_getElem?.mp member
  obtain ⟨writer, known⟩ := List.getElem?_zip_eq_some.mp here
  exact ⟨i, entry, bytes, writer, by rw [List.getElem?_map, known, Option.map_some, ended]⟩

section Runs

variable {σ : Type} {outside : World Request Reply σ} {fs : Filesystem} {dest : Path}
  {options : ExtractOptions} {entries selected : List WalkEntry}

/-- The attempts of a run that came to its end, phase by phase. -/
structure Counted (fs : Filesystem) (selected : List WalkEntry) (writes : List (Result Nat))
    (outcome : Result Tally) : Prop where
  phases : ∃ tally one two three, outcome = .ok tally ∧
    tally.attempts = one ++ two ++ three ∧ tally.errors = failures (one ++ two ++ three) ∧
    ((one ++ three).map (·.1)).Perm (List.range selected.length) ∧
    (∀ k, (k, true) ∈ two → (k, true) ∈ three) ∧
    (failures two = 0 ↔ ∀ write ∈ writes, ∃ bytes, write = .ok bytes)
  contents : ∀ entry ∈ selected, entry.kind = .regular →
    ∃ content, fs.contentId entry.inode = .ok content

/-- An ended run is counted, or it panicked over a write that returned no count. -/
theorem counted_of_whole (persist : options.continueOnError = true)
    (links : ∀ inode, fs.readLink inode ≠ panicked)
    (chosen : options.select entries = .ok selected) {before : Scene σ} {plan : Plan}
    {ready joined final : Scene σ} {writes : List (Result Nat)} {outcome : Result Tally}
    (prepared : Runs (inScene outside) (fs.prepare dest options (.ok entries)) before (.ok plan)
      ready)
    (wrote : Interleaves (inScene outside) (plan.writers.map fun writer =>
      writeOne fs dest writer.1) ready writes joined)
    (completed : Runs (inScene outside) (fs.complete dest options plan writes joined.written)
      joined outcome final) :
    Counted fs selected writes outcome ∨
      outcome = panicked ∧ ∃ write ∈ writes, ¬ ∃ bytes, write = .ok bytes := by
  obtain ⟨picked, writers, between, same, _, made, found, listed, sorted⟩ := runs_prepare_ok prepared
  rw [chosen, Except.ok.injEq] at same
  subst same
  have first := chosen_of_firstWriters found
  have perm : plan.writers.Perm writers := sorted ▸ List.mergeSort_perm ..
  obtain ⟨ready_, one, started, grewOne, countedOne⟩ := makeDirectories_grew persist made
  cases started
  have contents : ∀ entry position, (entry, position) ∈ selected.zipIdx → entry.kind = .regular →
      ∃ content, fs.contentId entry.inode = .ok content := by
    intro entry position member regular
    obtain ⟨content, known, _⟩ := first.covers _ member regular
    exact ⟨content, known⟩
  have each : writes.length = plan.writers.length := by
    simpa using interleaves_length wrote
  rcases runs_lift_bind.mp completed with ⟨outcomes, collected, placed⟩ | ⟨failure, stopped, same, _⟩
  · obtain rfl := collect_attempt collected
    rw [List.length_map] at each
    obtain ⟨tally, gathered, grewTwo⟩ := gather_grew persist (plan.writers.zip outcomes) plan.tally
    rw [gathered, Prog.lift_ok_bind, listed] at placed
    rcases placeOthers_placed persist contents placed with placed | ⟨same, entry, member, cause⟩
    · left
      obtain ⟨later, three, ended, grewThree, countedThree, named⟩ := placed
      have grew := (grewOne.trans grewTwo).trans grewThree
      refine ⟨⟨later, one, writeAttempts plan.writers outcomes, three, ended, grew.attempts,
        grew.errors.trans (Nat.zero_add _), ?_, ?_, failures_writeAttempts each⟩, ?_⟩
      · rw [List.map_append, countedOne, countedThree]
        exact positions_perm selected
      · intro k success
        obtain ⟨i, entry, bytes, here, done⟩ := mem_writeAttempts success
        have member : (entry, k) ∈ writers := perm.subset (List.mem_of_getElem? here)
        obtain ⟨content, known, _⟩ := first.fresh _ member
        exact named entry k content (first.sublist.subset member) (first.regular _ member) known
          (written_of_interleaves (first.perm perm) wrote here known done)
      · intro entry member regular
        obtain ⟨k, here⟩ := List.mem_iff_getElem?.mp member
        exact contents entry k (List.mem_zipIdx_iff_getElem?.mpr here) regular
    · right
      refine ⟨same, ?_⟩
      rcases cause with stuck | ⟨regular, content, known, absent⟩
      · exact absurd stuck (links _)
      · obtain ⟨id, found, old | ⟨writer, listed, sameContent⟩⟩ := first.covers _ member regular
        · cases old
        · rw [known, Except.ok.injEq] at found
          subst found
          obtain ⟨i, here⟩ := List.mem_iff_getElem?.mp (perm.symm.subset listed)
          have inside := (List.getElem?_eq_some_iff.mp here).1
          have place : i < (outcomes.map returned).length := by
            rw [List.length_map, each]
            exact inside
          refine ⟨_, List.getElem_mem place, ?_⟩
          rintro ⟨bytes, done⟩
          have known := written_of_interleaves (first.perm perm) wrote here sameContent
            ((List.getElem?_eq_getElem place).trans (congrArg some done))
          rw [absent] at known
          cases known
  · right
    obtain ⟨rfl, member⟩ := collect_attempt_error stopped
    exact ⟨same, _, member, by simp⟩

/-- Before phase 2 only a content id ends the run, once the destination exists. -/
theorem contentId_of_early (persist : options.continueOnError = true)
    (chosen : options.select entries = .ok selected) {before stopped : Scene σ}
    {failure : Failure Error}
    (created : ∀ reply after, outside before.outside (.createDirAll (components dest)) reply after →
      reply = .succeeded)
    (prepared : Runs (inScene outside) (fs.prepare dest options (.ok entries)) before
      (.error failure) stopped) :
    ∃ entry ∈ selected, entry.kind = .regular ∧ fs.contentId entry.inode = .error failure := by
  rcases runs_prepare_error chosen prepared with called | ⟨between, _, made | stopped⟩
  · obtain ⟨reply, answers, ⟨_, absurd_⟩ | ⟨other, _⟩⟩ := runs_call.mp called
    · cases absurd_
    · exact absurd (created reply _ answers.1) other
  · obtain ⟨_, _, absurd_, _⟩ := makeDirectories_grew persist made
    cases absurd_
  · obtain ⟨⟨entry, k⟩, member, regular, known⟩ := firstWriters_eq_error stopped
    exact ⟨entry, List.mem_of_getElem? (List.mem_zipIdx_iff_getElem?.mp member), regular, known⟩

theorem Counted.counts_iff {writes : List (Result Nat)} {outcome : Result Tally}
    (counted : Counted fs selected writes outcome) :
    AttemptsAll selected.length outcome ↔ ∀ write ∈ writes, ∃ bytes, write = .ok bytes := by
  obtain ⟨⟨tally, one, two, three, rfl, attempts, errors, once, again, clean⟩, _⟩ := counted
  have inside : ∀ attempt ∈ one ++ three, attempt ∈ tally.attempts := by
    intro attempt member
    rw [attempts]
    rcases List.mem_append.mp member with early | late
    · exact List.mem_append_left _ (List.mem_append_left _ early)
    · exact List.mem_append_right _ late
  have sum : tally.errors = failures (one ++ three) + failures two := by
    rw [errors, failures_append, failures_append, failures_append]
    omega
  rw [← clean]
  constructor
  · rintro ⟨_, ⟨⟩, _, named⟩
    rw [ok_bind, conclude_iff] at named
    have few := missing_le once inside
    omega
  · intro none_
    refine ⟨tally, rfl, ?_, ?_⟩
    · intro k below
      have listed : k ∈ (one ++ three).map (·.1) := once.mem_iff.mpr (List.mem_range.mpr below)
      obtain ⟨⟨_, success⟩, member, rfl⟩ := List.mem_map.mp listed
      exact ⟨success, inside _ member⟩
    · have only : ∀ k, (k, true) ∈ tally.attempts → (k, true) ∈ one ++ three := by
        intro k success
        rw [attempts, List.mem_append, List.mem_append] at success
        rcases success with (early | twice) | late
        · exact List.mem_append_left _ early
        · exact List.mem_append_right _ (again k twice)
        · exact List.mem_append_right _ late
      rw [ok_bind, conclude_iff, missing_eq_failures once inside only]
      omega

/-- With `continue_on_error`, everything selected is attempted and each entry that was not
placed is counted once, exactly when every selected file has a content id and no write of
phase 2 fails. -/
theorem attemptsAll_iff {libs : Libraries} {build : Build} {image : Format.Image}
    (opened : Filesystem.openImage libs build image = .ok fs)
    (persist : options.continueOnError = true) (chosen : options.select entries = .ok selected)
    {before after : σ} {writes : List (Result Nat)} {outcome : Result Tally}
    (created : ∀ reply after, outside before (.createDirAll (components dest)) reply after →
      reply = .succeeded)
    (ran : Extracts outside fs dest options (.ok entries) before writes outcome after) :
    AttemptsAll selected.length outcome ↔
      (∀ entry ∈ selected, entry.kind = .regular →
        ∃ content, fs.contentId entry.inode = .ok content) ∧
      ∀ write ∈ writes, ∃ bytes, write = .ok bytes := by
  have links := fun inode =>
    (AccessorSafety.settles_readLink (OpenedFilesystem.derived_of_open opened) inode).1
  cases ran with
  | early prepared =>
    obtain ⟨entry, member, regular, known⟩ := contentId_of_early persist chosen created prepared
    constructor
    · rintro ⟨_, absurd_, _⟩
      cases absurd_
    · rintro ⟨contents, _⟩
      obtain ⟨content, found⟩ := contents entry member regular
      rw [known] at found
      cases found
  | whole prepared wrote completed =>
    rcases counted_of_whole persist links chosen prepared wrote completed with
      counted | ⟨rfl, write, member, failed⟩
    · exact counted.counts_iff.trans (iff_and_self.mpr fun _ => counted.contents)
    · constructor
      · rintro ⟨_, absurd_, _⟩
        cases absurd_
      · rintro ⟨_, clean⟩
        exact absurd (clean write member) failed

end Runs

section Inputs

open OpenedFilesystem ExtractContainment

/-- Everything succeeds but what is refused. -/
def respond (refused : Request → Bool) : Request → Reply
  | .readInto _ _ _ => .read (.ok (5, helloBlock))
  | request => if refused request then .failed else .succeeded

def responding (refused : Request → Bool) : World Request Reply Unit :=
  fun _ request reply _ => reply = respond refused request

def respondInScene (refused : Request → Bool) (request : Request) (scene : Scene Unit) :
    Option (Result Reply × Scene Unit) :=
  match request with
  | .insert content place =>
    some (.ok .succeeded,
      { scene with written := Function.update scene.written content (some place) })
  | request => some (.ok (respond refused request), scene)

theorem respondInScene_answers (refused : Request → Bool) (request : Request) (before : Scene Unit)
    (given : Result Reply) (after : Scene Unit)
    (handled : respondInScene refused request before = some (given, after)) :
    ∃ reply, given = .ok reply ∧ inScene (responding refused) before request reply after := by
  cases request <;> cases handled <;> exact ⟨_, rfl, rfl, rfl⟩

def creations : Request → Bool
  | .create _ => true
  | _ => false

def hardLinks : Request → Bool
  | .hardLink _ _ => true
  | _ => false

def carryOn : ExtractOptions := ⟨true, true, []⟩

def nothingWritten : Scene Unit := ⟨(), fun _ => none⟩

/-- A root with one file under two names, `a` and `b`. -/
def linkedMetadata : Bytes := [
  17, 2, 21, 2, 25, 2, 25, 2, 25, 2, 27, 2, 0, 16, 5, 28, 3, 0, 0, 2, 0, 2, 3, 0, 1, 0, 0, 3, 0,
  0, 1, 0, 2, 237, 65, 164, 129, 4, 1, 3, 1, 97, 98, 0, 0, 0, 1, 1, 1]

def linkedImage : Format.Image where
  source := .ofVec (sectionBytes 0 0 0x2027c1b241d375cb helloBlock ++
    sectionBytes 1 7 0x2f60492a392991ee schemaBytes ++
    sectionBytes 2 8 0xf939408808bdf256 linkedMetadata)
  baseOffset := 0
  sections := [sectionRecord 0 0 .block 0x2027c1b241d375cb 5,
    sectionRecord 69 1 .metadataV2Schema 0x2f60492a392991ee 201,
    sectionRecord 334 2 .metadataV2 0xf939408808bdf256 49]
  sectionIndex := none

def linkedLibraries : Libraries :=
  { libraries with
    xxh3 := fun covered => if covered.length = 65 then 0xf939408808bdf256 else libraries.xxh3 covered }

def linkedTables : Tables :=
  { climbingTables with
    directories := [⟨0, 1, 0⟩, ⟨0, 3, 0⟩], dirEntries := [⟨0, 0⟩, ⟨0, 1⟩, ⟨1, 1⟩]
    names := { data := [97, 98], offsets := [0, 1, 2] } }

def linked : Filesystem := filesystem linkedImage linkedTables [2, 5] ⟨0, 2, 1, 2, 2, 2, 2⟩

theorem open_linked : Filesystem.openImage linkedLibraries .checked linkedImage = .ok linked :=
  openImage_eq_ok.mpr ⟨linkedTables, by decide +kernel,
    ofTables_unpacked rfl rfl (by decide) (by decide)⟩

def linkedFile : WalkEntry := ⟨[47, 97], 1, .regular⟩

def linkedWalk : List WalkEntry := [⟨[], 0, .directory⟩, linkedFile, ⟨[47, 98], 1, .regular⟩]

def linkedPlan : Plan where
  entries := linkedWalk.zipIdx
  writers := [(linkedFile, 1)]
  tally := { stats := { directories := 1 }, attempts := [(0, true)] }

/-- The second name could not be linked. -/
def linkedTally : Tally where
  stats := { directories := 1, files := 1, errors := 1 }
  errors := 1
  attempts := [(0, true), (1, true), (1, true), (2, false)]

theorem extracts_linked :
    Extracts (responding hardLinks) linked [100] carryOn (.ok linkedWalk) () [.ok 5]
      (.ok linkedTally) () := by
  let joined : Scene Unit :=
    ⟨(), Function.update (fun _ => none) 0 (some (targetOf [100] linkedFile))⟩
  have prepared : Runs (inScene (responding hardLinks))
      (linked.prepare [100] carryOn (.ok linkedWalk)) nothingWritten (.ok linkedPlan)
      nothingWritten := runs_of_run (respondInScene_answers hardLinks) (by with_unfolding_all rfl)
  have wrote : Runs (inScene (responding hardLinks)) (writeOne linked [100] linkedFile)
      nothingWritten (.ok 5) joined :=
    runs_of_run (respondInScene_answers hardLinks) (by with_unfolding_all rfl)
  have completed : Runs (inScene (responding hardLinks))
      (linked.complete [100] carryOn linkedPlan [.ok 5] joined.written) joined
      (.ok linkedTally) joined := runs_of_run (respondInScene_answers hardLinks) rfl
  exact .whole prepared (interleaves_single wrote) completed

/-- One hard link that fails is one entry that failed. -/
theorem attemptsAll_linked : AttemptsAll 3 (.ok linkedTally) := by
  have chosen : carryOn.select linkedWalk = .ok linkedWalk := rfl
  refine (attemptsAll_iff open_linked rfl chosen ?_ extracts_linked).mpr ⟨?_, ?_⟩
  · rintro reply after rfl
    rfl
  · intro entry member regular
    simp only [linkedWalk, List.mem_cons, List.not_mem_nil, or_false] at member
    rcases member with rfl | rfl | rfl
    · cases regular
    · exact ⟨0, by decide⟩
    · exact ⟨0, by decide⟩
  · intro write member
    exact ⟨5, List.mem_singleton.mp member⟩

def climbingFile : WalkEntry := ⟨[47, 46, 46, 47, 97], 1, .regular⟩

def climbingPlan : Plan where
  entries := [(⟨[], 0, .directory⟩, 0), (climbingFile, 1)]
  writers := [(climbingFile, 1)]
  tally := { stats := { directories := 1 }, attempts := [(0, true)] }

def refusedTally : Tally where
  stats := { directories := 1, errors := 2 }
  errors := 2
  attempts := [(0, true), (1, false), (1, false)]

/-- One file that cannot be created is two entries that failed. -/
theorem refused_counted_twice :
    Filesystem.openImage libraries .checked climbingImage = .ok climbing ∧
      climbing.walk 1 = some (.ok climbingWalk) ∧ carryOn.select climbingWalk = .ok climbingWalk ∧
      Extracts (responding creations) climbing [100] carryOn (.ok climbingWalk) () [fail .io]
        (.ok refusedTally) () ∧
      refusedTally.conclude = fail (failed 2) ∧ missing 2 refusedTally.attempts = 1 ∧
      ¬ AttemptsAll 2 (.ok refusedTally) := by
  have prepared : Runs (inScene (responding creations))
      (climbing.prepare [100] carryOn (.ok climbingWalk)) nothingWritten (.ok climbingPlan)
      nothingWritten := runs_of_run (respondInScene_answers creations) (by with_unfolding_all rfl)
  have wrote : Runs (inScene (responding creations)) (writeOne climbing [100] climbingFile)
      nothingWritten (fail .io) nothingWritten := runs_of_run (respondInScene_answers creations) rfl
  have completed : Runs (inScene (responding creations))
      (climbing.complete [100] carryOn climbingPlan [fail .io] nothingWritten.written)
      nothingWritten (.ok refusedTally) nothingWritten :=
    runs_of_run (respondInScene_answers creations) rfl
  have twice : refusedTally.errors = 2 := rfl
  have one : missing 2 refusedTally.attempts = 1 := by decide
  refine ⟨open_climbing, by decide, rfl,
    .whole prepared (interleaves_single wrote) completed, ?_, one, ?_⟩
  · rw [conclude_eq, twice]
    rfl
  · rintro ⟨_, ⟨⟩, _, named⟩
    rw [ok_bind, conclude_iff, one, twice] at named
    cases named

end Inputs

end Rdwarfs.Guarantees.FailureCounts
