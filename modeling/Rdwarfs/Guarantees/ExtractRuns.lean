import Rdwarfs.Source.Fs.ExtractAll

/-!
# The three phases of an extraction

What phase 1 hands on, and what the writers of phase 2 ask for: each touches its own file and
its own place in the shared map, and no two have the same content.
-/
namespace Rdwarfs.Guarantees.ExtractRuns

open Lib.Machine Lib.Oracle Lib.UnixPath Lib.Interleaving Source Source.Fs Extraction

section Writers

variable {fs : Filesystem}

/-- Files chosen to be written: regular ones with a content each, no content twice. -/
structure Chosen (fs : Filesystem) (seen : List UInt32) (entries writers : List (WalkEntry × Nat)) :
    Prop where
  sublist : writers.Sublist entries
  regular : ∀ writer ∈ writers, writer.1.kind = .regular
  fresh : ∀ writer ∈ writers, ∃ content, fs.contentId writer.1.inode = .ok content ∧ content ∉ seen
  distinct : writers.Pairwise fun one other =>
    fs.contentId one.1.inode ≠ fs.contentId other.1.inode
  covers : ∀ entry ∈ entries, entry.1.kind = .regular →
    ∃ content, fs.contentId entry.1.inode = .ok content ∧
      (content ∈ seen ∨ ∃ writer ∈ writers, fs.contentId writer.1.inode = .ok content)

theorem chosen_of_firstWriters {entries writers : List (WalkEntry × Nat)} {seen : List UInt32}
    (found : fs.firstWriters entries seen = .ok writers) : Chosen fs seen entries writers := by
  induction entries generalizing seen writers with
  | nil =>
    cases found
    exact ⟨.refl _, by simp, by simp, .nil, by simp⟩
  | cons numbered rest ih =>
    obtain ⟨entry, position⟩ := numbered
    rw [Filesystem.firstWriters] at found
    by_cases regular : entry.kind = .regular
    · rw [if_neg (not_not.mpr regular)] at found
      obtain ⟨content, known, found⟩ := bind_eq_ok.mp found
      obtain ⟨others, later, found⟩ := bind_eq_ok.mp found
      have chosen := ih later
      have covered : ∀ writers : List (WalkEntry × Nat), (∀ writer ∈ others, writer ∈ writers) →
          (content ∈ seen ∨ ∃ writer ∈ writers, fs.contentId writer.1.inode = .ok content) →
          ∀ other ∈ (entry, position) :: rest, other.1.kind = .regular →
            ∃ id, fs.contentId other.1.inode = .ok id ∧
              (id ∈ seen ∨ ∃ writer ∈ writers, fs.contentId writer.1.inode = .ok id) := by
        intro writers more own other member regular
        rcases List.mem_cons.mp member with rfl | member
        · exact ⟨content, known, own⟩
        · obtain ⟨id, found, place⟩ := chosen.covers other member regular
          refine ⟨id, found, ?_⟩
          rcases place with old | ⟨writer, member, same⟩
          · rcases List.mem_cons.mp old with rfl | old
            · exact own
            · exact Or.inl old
          · exact Or.inr ⟨writer, more writer member, same⟩
      have old : ∀ writer ∈ others, ∃ id, fs.contentId writer.1.inode = .ok id ∧ id ∉ seen := by
        intro writer member
        obtain ⟨id, found, absent⟩ := chosen.fresh writer member
        exact ⟨id, found, fun before => absent (List.mem_cons_of_mem _ before)⟩
      by_cases repeated : content ∈ seen
      · rw [if_pos repeated] at found
        cases found
        exact ⟨chosen.sublist.cons _, chosen.regular, old, chosen.distinct,
          covered _ (fun _ => id) (Or.inl repeated)⟩
      · rw [if_neg repeated] at found
        cases found
        refine ⟨chosen.sublist.cons_cons _, ?_, ?_, ?_, ?_⟩
        · intro writer member
          rcases List.mem_cons.mp member with rfl | member
          · exact regular
          · exact chosen.regular writer member
        · intro writer member
          rcases List.mem_cons.mp member with rfl | member
          · exact ⟨content, known, repeated⟩
          · exact old writer member
        · refine List.pairwise_cons.mpr ⟨fun writer member same => ?_, chosen.distinct⟩
          obtain ⟨id, found, absent⟩ := chosen.fresh writer member
          rw [known, found, Except.ok.injEq] at same
          exact absent (same ▸ List.mem_cons_self)
        · exact covered _ (fun _ => List.mem_cons_of_mem _)
            (Or.inr ⟨_, List.mem_cons_self, known⟩)
    · rw [if_pos regular] at found
      have chosen := ih found
      refine ⟨chosen.sublist.cons _, chosen.regular, chosen.fresh, chosen.distinct, ?_⟩
      intro other member
      rcases List.mem_cons.mp member with rfl | member
      · exact fun absurd_ => absurd absurd_ regular
      · exact chosen.covers other member

/-- The order they are written in changes nothing of that. -/
theorem Chosen.perm {seen : List UInt32} {entries writers sorted : List (WalkEntry × Nat)}
    (chosen : Chosen fs seen entries writers) (perm : sorted.Perm writers) :
    sorted.Pairwise fun one other => fs.contentId one.1.inode ≠ fs.contentId other.1.inode :=
  (perm.pairwise_iff fun differs => Ne.symm differs).mpr chosen.distinct

theorem firstWriters_eq_error {entries : List (WalkEntry × Nat)} {seen : List UInt32}
    {failure : Failure Error} (stopped : fs.firstWriters entries seen = .error failure) :
    ∃ entry ∈ entries, entry.1.kind = .regular ∧ fs.contentId entry.1.inode = .error failure := by
  induction entries generalizing seen with
  | nil => cases stopped
  | cons numbered rest ih =>
    obtain ⟨entry, position⟩ := numbered
    rw [Filesystem.firstWriters] at stopped
    have onward : ∀ {seen}, fs.firstWriters rest seen = .error failure →
        ∃ other ∈ (entry, position) :: rest, other.1.kind = .regular ∧
          fs.contentId other.1.inode = .error failure := by
      intro seen stopped
      obtain ⟨other, member, found⟩ := ih stopped
      exact ⟨other, List.mem_cons_of_mem _ member, found⟩
    by_cases regular : entry.kind = .regular
    · rw [if_neg (not_not.mpr regular)] at stopped
      cases known : fs.contentId entry.inode with
      | error other =>
        rw [known] at stopped
        cases stopped
        exact ⟨_, List.mem_cons_self, regular, known⟩
      | ok content =>
        rw [known, ok_bind] at stopped
        cases later : fs.firstWriters rest (content :: seen) with
        | error other =>
          rw [later] at stopped
          cases stopped
          exact onward later
        | ok others =>
          rw [later] at stopped
          cases stopped
    · rw [if_pos regular] at stopped
      exact onward stopped

end Writers

section Attempts

/-- An operation that returned, as the value it returned. -/
def returned {α : Type} : Except Error α → Result α
  | .ok value => .ok value
  | .error reason => fail reason

theorem returned_inj {α : Type} {outcome : Except Error α} {value : α}
    (same : returned outcome = .ok value) : outcome = .ok value := by
  cases outcome with
  | ok done =>
    cases same
    rfl
  | error reason => cases same

theorem attempt_eq_ok {α φ : Type} {run : Result α} {outcome : Except Error α} :
    (attempt run : Res φ (Except Error α)) = .ok outcome ↔ run = returned outcome := by
  cases run with
  | ok value => cases outcome <;> simp [attempt, returned]
  | error failure =>
    cases failure with
    | err reason => cases outcome <;> simp [attempt, returned]
    | panic => cases outcome <;> simp [attempt, returned]

theorem attempt_eq_error {α φ : Type} {run : Result α} {failure : Failure φ} :
    (attempt run : Res φ (Except Error α)) = .error failure ↔ run = panicked ∧ failure = .panic := by
  cases run with
  | ok value => simp [attempt]
  | error stopped =>
    cases stopped with
    | err reason => simp [attempt]
    | panic => simp [attempt, eq_comm]

theorem collect_attempt {results : List (Result Nat)} {outcomes : List (Except Error Nat)}
    (collected : collect attempt results = (.ok outcomes : Result _)) :
    results = outcomes.map returned := by
  have same := (collect_eq_ok ..).mp collected
  induction same with
  | nil => rfl
  | cons tried _ ih =>
    rw [List.map_cons, attempt_eq_ok.mp tried, ← ih ((collect_eq_ok ..).mpr ‹_›)]

theorem collect_attempt_error {results : List (Result Nat)} {failure : Failure Error}
    (stopped : collect attempt results = .error failure) :
    failure = .panic ∧ panicked ∈ results := by
  induction results with
  | nil => cases stopped
  | cons result rest ih =>
    rw [collect] at stopped
    cases tried : (attempt result : Result (Except Error Nat)) with
    | error other =>
      rw [tried] at stopped
      cases stopped
      obtain ⟨rfl, same⟩ := attempt_eq_error.mp tried
      exact ⟨same, List.mem_cons_self⟩
    | ok outcome =>
      rw [tried, ok_bind] at stopped
      cases later : collect attempt rest with
      | error other =>
        rw [later] at stopped
        cases stopped
        obtain ⟨same, member⟩ := ih later
        exact ⟨same, List.mem_cons_of_mem _ member⟩
      | ok outcomes =>
        rw [later] at stopped
        cases stopped

end Attempts

section Phases

variable {S : Type} {world : World Request Reply S} {before after : S}

theorem runs_call {request : Request} {result : Result Unit} :
    Runs world (call request) before result after ↔
      ∃ reply, world before request reply after ∧
        ((reply = .succeeded ∧ result = .ok ()) ∨ (reply ≠ .succeeded ∧ result = fail .io)) := by
  rw [call, runs_ask]
  constructor
  · rintro ⟨reply, between, answers, ran⟩
    cases reply with
    | succeeded =>
      obtain ⟨rfl, rfl⟩ := runs_done.mp ran
      exact ⟨_, answers, Or.inl ⟨rfl, rfl⟩⟩
    | failed | read _ =>
      obtain ⟨rfl, rfl⟩ := runs_done.mp ran
      exact ⟨_, answers, Or.inr ⟨by simp, rfl⟩⟩
  · rintro ⟨reply, answers, ⟨rfl, rfl⟩ | ⟨other, rfl⟩⟩
    · exact ⟨_, after, answers, .done ..⟩
    · refine ⟨reply, after, answers, ?_⟩
      cases reply with
      | succeeded => exact absurd rfl other
      | failed | read _ => exact .done ..

variable {fs : Filesystem} {dest : Path} {options : ExtractOptions}
  {walked : Result (List WalkEntry)}

/-- What a plan was made from. -/
structure Planned (world : World Request Reply S) (fs : Filesystem) (dest : Path)
    (options : ExtractOptions) (entries : List WalkEntry) (before : S) (plan : Plan) (after : S) :
    Prop where
  parts : ∃ selected writers between, options.select entries = .ok selected ∧
    Runs world (call (.createDirAll (components dest))) before (.ok ()) between ∧
    Runs world (Filesystem.makeDirectories dest options selected.zipIdx {}) between
      (.ok plan.tally) after ∧
    fs.firstWriters selected.zipIdx [] = .ok writers ∧ plan.entries = selected.zipIdx ∧
    plan.writers = writers.mergeSort fs.writerLe

theorem runs_prepare_ok {entries : List WalkEntry} {plan : Plan}
    (ran : Runs world (fs.prepare dest options (.ok entries)) before (.ok plan) after) :
    Planned world fs dest options entries before plan after := by
  rcases runs_bind.mp ran with ⟨_, between, called, ran⟩ | ⟨_, _, absurd_⟩
  · rw [Prog.lift_ok_bind] at ran
    rcases runs_lift_bind.mp ran with ⟨selected, chosen, ran⟩ | ⟨_, _, absurd_, _⟩
    · rcases runs_bind.mp ran with ⟨tally, ready, made, ran⟩ | ⟨_, _, absurd_⟩
      · rcases runs_lift_bind.mp ran with ⟨writers, found, ran⟩ | ⟨_, _, absurd_, _⟩
        · obtain ⟨same, rfl⟩ := runs_done.mp ran
          cases same
          exact ⟨selected, writers, between, chosen, called, made, found, rfl, rfl⟩
        · cases absurd_
      · cases absurd_
    · cases absurd_
  · cases absurd_

/-- The ways to return before phase 2. -/
theorem runs_prepare_error {entries selected : List WalkEntry} {failure : Failure Error}
    (chosen : options.select entries = .ok selected)
    (ran : Runs world (fs.prepare dest options (.ok entries)) before (.error failure) after) :
    Runs world (call (.createDirAll (components dest))) before (.error failure) after ∨
      ∃ between, Runs world (call (.createDirAll (components dest))) before (.ok ()) between ∧
        (Runs world (Filesystem.makeDirectories dest options selected.zipIdx {}) between
            (.error failure) after ∨
          fs.firstWriters selected.zipIdx [] = .error failure) := by
  rcases runs_bind.mp ran with ⟨_, between, called, ran⟩ | ⟨_, called, same⟩
  · right
    refine ⟨between, called, ?_⟩
    rw [Prog.lift_ok_bind, chosen, Prog.lift_ok_bind] at ran
    rcases runs_bind.mp ran with ⟨tally, ready, made, ran⟩ | ⟨_, made, same⟩
    · rcases runs_lift_bind.mp ran with ⟨writers, found, ran⟩ | ⟨_, found, same, _⟩
      · cases ran
      · cases same
        exact Or.inr found
    · cases same
      exact Or.inl made
  · left
    cases same
    exact called

end Phases

section Requests

variable (fs : Filesystem) (dest : Path)

/-- What the writer of an entry may ask for. -/
def MayAsk (entry : WalkEntry) : Request → Prop
  | .createDirAll _ | .readInto _ _ _ => True
  | .create place | .writeAll place _ => place = targetOf dest entry
  | .insert content place =>
    fs.contentId entry.inode = .ok content ∧ place = targetOf dest entry
  | .hardLink _ _ | .copy _ _ | .symlink _ _ => False

theorem asks_call {may : Request → Prop} {request : Request} (here : may request) :
    Asks may (call request) := by
  refine .ask here fun reply => ?_
  cases reply <;> exact .done _

theorem asks_lift {α : Type} {may : Request → Prop} (result : Result α) :
    Asks may (Prog.lift result : Extracting α) := .done result

theorem asks_createParent {may : Request → Prop} (every : ∀ place, may (.createDirAll place))
    (target : Place) : Asks may (createParent target) := by
  unfold createParent
  split
  · exact asks_call (every _)
  · exact .done _

theorem asks_writeFrom {may : Request → Prop} {inode : UInt32} {target : Place}
    (reads : ∀ offset buf, may (.readInto inode offset buf))
    (writes : ∀ bytes, may (.writeAll target bytes)) (size offset : Nat) (buf : Bytes) :
    Asks may (writeFrom inode target size offset buf) := by
  generalize left : size - offset = rest
  induction rest using Nat.strongRecOn generalizing offset buf with
  | ind rest ih =>
    rw [writeFrom]
    split
    · rename_i before
      refine .ask (reads offset buf) fun reply => ?_
      cases reply with
      | succeeded => exact .done _
      | failed => exact .done _
      | read outcome =>
        cases outcome with
        | error failure => exact .done _
        | ok filled =>
          obtain ⟨n, buf⟩ := filled
          simp only
          split
          · exact .done _
          · rename_i more
            refine asks_bind (asks_lift _) fun bytes => ?_
            refine asks_bind (asks_call (writes bytes)) fun _ => ?_
            refine asks_bind (asks_lift _) fun _ => ?_
            exact ih (size - (offset + n)) (by omega) (offset + n) buf rfl
    · exact .done _

theorem asks_writeRegular (entry : WalkEntry) :
    Asks (MayAsk fs dest entry) (writeRegular fs entry.inode (targetOf dest entry)) := by
  refine asks_bind (asks_createParent (fun _ => trivial) _) fun _ => ?_
  refine asks_bind (asks_call rfl) fun _ => ?_
  refine asks_bind (asks_lift _) fun size => ?_
  exact asks_bind (asks_writeFrom (fun _ _ => trivial) (fun _ => rfl) ..) fun _ => .done _

theorem asks_writeOne (entry : WalkEntry) :
    Asks (MayAsk fs dest entry) (writeOne fs dest entry) := by
  refine asks_bind (asks_writeRegular fs dest entry) fun bytes => ?_
  cases known : fs.contentId entry.inode with
  | error failure => exact .done _
  | ok content => exact .ask ⟨known, rfl⟩ fun _ => .done _

/-- What writer `j` may ask for. -/
def Own (writers : List (WalkEntry × Nat)) (j : Nat) (request : Request) : Prop :=
  ∃ writer, writers[j]? = some writer ∧ MayAsk fs dest writer.1 request

theorem askOwn_writers (writers : List (WalkEntry × Nat)) :
    AskOwn (Own fs dest writers) (writers.map fun writer => writeOne fs dest writer.1) := by
  intro j program known
  rw [List.getElem?_map] at known
  obtain ⟨writer, here, rfl⟩ := Option.map_eq_some_iff.mp known
  exact (asks_writeOne fs dest writer.1).mono fun request may => ⟨writer, here, may⟩

end Requests

section Map

variable {fs : Filesystem} {dest : Path} {σ : Type} {outside : World Request Reply σ}

/-- The place in the map of one content, as the only thing there is. -/
def mapAlone (content : UInt32) : World Request Reply (Option Place)
  | before, .insert id place, _, after => after = if id = content then some place else before
  | before, _, _, after => after = before

theorem apart_of_pairwise {α β : Type} {key : α → β} {xs : List α}
    (distinct : xs.Pairwise fun one other => key one ≠ key other) {i j : Nat} {x y : α}
    (here : xs[i]? = some x) (there : xs[j]? = some y) (apart : j ≠ i) : key y ≠ key x := by
  obtain ⟨inside, rfl⟩ := List.getElem?_eq_some_iff.mp here
  obtain ⟨also, rfl⟩ := List.getElem?_eq_some_iff.mp there
  rcases Nat.lt_or_gt_of_ne apart with before | behind
  · exact List.pairwise_iff_getElem.mp distinct j i also inside before
  · exact Ne.symm (List.pairwise_iff_getElem.mp distinct i j inside also behind)

theorem separate_map {writers : List (WalkEntry × Nat)}
    (distinct : writers.Pairwise fun one other =>
      fs.contentId one.1.inode ≠ fs.contentId other.1.inode) {i : Nat} {writer : WalkEntry × Nat}
    (here : writers[i]? = some writer) {content : UInt32}
    (known : fs.contentId writer.1.inode = .ok content) :
    Separate (inScene outside) (mapAlone content) (fun scene => scene.written content)
      (Own fs dest writers) i where
  mine := by
    rintro before question answer after _ answers
    cases question with
    | insert id place =>
      obtain ⟨_, rfl⟩ := answers
      by_cases same : id = content
      · simp [mapAlone, same]
      · simp [mapAlone, same, Function.update_of_ne (Ne.symm same)]
    | _ => exact congrFun answers.2 content
  others := by
    rintro j before question answer after apart ⟨other, there, may⟩ answers
    cases question with
    | insert id place =>
      obtain ⟨_, rfl⟩ := answers
      have differs : content ≠ id := by
        rintro rfl
        exact apart_of_pairwise distinct here there apart (may.1.trans known.symm)
      exact Function.update_of_ne differs ..
    | _ => exact congrFun answers.2 content

/-- A writer that returns a count has left its file in the map. -/
theorem mapAlone_writeOne {content : UInt32} {entry : WalkEntry} {bytes : Nat}
    {before after : Option Place} (known : fs.contentId entry.inode = .ok content)
    (ran : Runs (mapAlone content) (writeOne fs dest entry) before (.ok bytes) after) :
    after = some (targetOf dest entry) := by
  rcases runs_bind.mp ran with ⟨written, between, _, ran⟩ | ⟨_, _, absurd_⟩
  · rw [known, Prog.lift_ok_bind] at ran
    obtain ⟨_, _, answers, ran⟩ := runs_ask.mp ran
    obtain ⟨_, rfl⟩ := runs_done.mp ran
    simpa [mapAlone] using answers
  · cases absurd_

theorem written_of_interleaves {writers : List (WalkEntry × Nat)}
    (distinct : writers.Pairwise fun one other =>
      fs.contentId one.1.inode ≠ fs.contentId other.1.inode) {ready joined : Scene σ}
    {results : List (Result Nat)}
    (wrote : Interleaves (inScene outside) (writers.map fun writer => writeOne fs dest writer.1)
      ready results joined) {i : Nat} {writer : WalkEntry × Nat} (here : writers[i]? = some writer)
    {content : UInt32} (known : fs.contentId writer.1.inode = .ok content) {bytes : Nat}
    (done : results[i]? = some (.ok bytes)) :
    joined.written content = some (targetOf dest writer.1) := by
  have program : (writers.map fun writer => writeOne fs dest writer.1)[i]? =
      some (writeOne fs dest writer.1) := by
    rw [List.getElem?_map, here, Option.map_some]
  obtain ⟨result, found, alone⟩ := (separate_map distinct here known).runs
    (askOwn_writers fs dest writers) wrote program
  rw [done] at found
  cases found
  exact mapAlone_writeOne known alone

end Map

end Rdwarfs.Guarantees.ExtractRuns
