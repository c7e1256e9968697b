import Rdwarfs.Guarantees.WalkTermination
import Rdwarfs.Lib.Precedence
import Rdwarfs.Source.Fs.Lookup
import Mathlib.Data.List.Nodup

/-!
# Walking and looking up see one tree

A trail is an entry together with the directories on the way to it. In a finite tree the
walk lists the root and then every trail once, a directory before what is in it; and where
the names of each directory are in order, a lookup follows exactly the trail whose names it
was given.
-/
namespace Rdwarfs.Guarantees.TreeAgreement

open Lib.Machine Lib.Precedence Source Source.Fs WalkTermination

/-- An index into the table of entries, and what the entry there says. -/
abbrev Place := Nat × Listing

/-- The directories that lead to an entry, outermost first, and the entry. -/
structure Trail where
  above : List Place
  entry : Place

namespace Trail

def names (trail : Trail) : List Bytes :=
  (trail.above ++ [trail.entry]).map fun place => place.2.name

/-- The same trail seen from further up. -/
def under (place : Place) (trail : Trail) : Trail := ⟨place :: trail.above, trail.entry⟩

/-- `p` is the trail to the directory that the entry of `trail` is in. -/
def Holds (p trail : Trail) : Prop := trail.above = p.above ++ [p.entry]

end Trail

/-- Components as a path. -/
def render (names : List Bytes) : Bytes := names.flatMap (slash :: ·)

/-- What the walk says about a trail that starts at `path`. -/
def shownAt (path : Bytes) (trail : Trail) : WalkEntry :=
  ⟨path ++ render trail.names, trail.entry.2.inode, trail.entry.2.kind⟩

section Trails

variable (fs : Filesystem)

/-- Entry `i` is one of directory `d`. -/
def Within (d : UInt32) (i : Nat) : Prop :=
  ∃ start stop, fs.dirEntryRange d = .ok (start, stop) ∧ start ≤ i ∧ i < stop

/-- The first place is among the given entries, and every other one is an entry of the
directory before it. -/
def Leads (among : Nat → Prop) : List Place → Place → Prop
  | [], entry => among entry.1 ∧ fs.listEntry entry.1 = .ok entry.2
  | place :: rest, entry =>
    among place.1 ∧ fs.listEntry place.1 = .ok place.2 ∧ place.2.kind = .directory ∧
      Leads (Within fs place.2.inode) rest entry

/-- The trail leads from the root to an entry. -/
def Reached (trail : Trail) : Prop := Leads fs (Within fs 0) trail.above trail.entry

/-- Every directory can be listed and none lies below itself; and only one trail leads to
each entry. -/
structure FiniteTree : Prop where
  finite : Sound fs 0
  once : ∀ one other : Trail, Reached fs one → Reached fs other → one.entry.1 = other.entry.1 →
    one = other

/-- The format's ordering of names. -/
def Named : Prop :=
  ∀ d entries, fs.readDir d = .ok entries →
    (∀ entry ∈ entries, entry.name ≠ [] ∧ slash ∉ entry.name) ∧
    entries.Pairwise fun one other => compare one.name other.name = .lt

/-- A list of all trails, each once, directories before their contents. -/
structure Lists (among : Nat → Prop) (trails : List Trail) : Prop where
  mem : ∀ trail, trail ∈ trails ↔ Leads fs among trail.above trail.entry
  nodup : trails.Nodup
  led : LedFrom Trail.Holds (fun _ => False) trails

end Trails

section Listings

variable {fs : Filesystem}

theorem readDir_eq_ok {d : UInt32} {entries : List Listing} (read : fs.readDir d = .ok entries) :
    fs.kind d = .ok .directory ∧ ∃ start stop, fs.dirEntryRange d = .ok (start, stop) ∧
      start ≤ stop ∧ List.Forall₂ (fun i entry => fs.listEntry i = .ok entry)
        (List.range' start (stop - start)) entries := by
  simp only [Filesystem.readDir, bind_eq_ok, refuseIf_eq_ok, Decidable.not_not] at read
  obtain ⟨kind, known, _, rfl, ⟨start, stop⟩, range, collected⟩ := read
  refine ⟨known, start, stop, range, ?_, (collect_eq_ok _ _ _).mp collected⟩
  simp only [Filesystem.dirEntryRange, bind_eq_ok, refuseIf_eq_ok, pure_eq_ok,
    Except.ok.injEq, Prod.mk.injEq] at range
  obtain ⟨_, _, _, _, _, ordered, rfl, rfl⟩ := range
  omega

theorem within_iff {d : UInt32} {start stop i : Nat}
    (range : fs.dirEntryRange d = .ok (start, stop)) (ordered : start ≤ stop) :
    Within fs d i ↔ i ∈ List.range' start (stop - start) := by
  rw [List.mem_range'_1]
  constructor
  · rintro ⟨_, _, range', bounds⟩
    rw [range] at range'
    cases range'
    omega
  · intro bounds
    exact ⟨start, stop, range, by omega, by omega⟩

/-- An entry is listed with the kind that its inode has. -/
theorem listEntry_eq_ok {i : Nat} {entry : Listing} (listed : fs.listEntry i = .ok entry) :
    fs.kind entry.inode = .ok entry.kind ∧
      ∀ name, fs.compareEntry name i = .ok (compare entry.name name, entry.inode) := by
  simp only [Filesystem.listEntry, bind_eq_ok, pure_eq_ok, Except.ok.injEq] at listed
  obtain ⟨row, found, own, named, kind, known, rfl⟩ := listed
  refine ⟨known, fun name => ?_⟩
  simp only [Filesystem.compareEntry, found, named, ok_bind, pure_eq_ok]

end Listings

section Walk

variable {fs : Filesystem}

theorem names_under (place : Place) (trail : Trail) :
    (trail.under place).names = place.2.name :: trail.names := rfl

theorem shownAt_under (path : Bytes) (place : Place) (trail : Trail) :
    shownAt path (trail.under place) = shownAt (joinPath path place.2.name) trail := by
  have last : (trail.under place).entry = trail.entry := rfl
  simp [shownAt, names_under, last, render, joinPath]

theorem shownAt_single (path : Bytes) (place : Place) :
    shownAt path ⟨[], place⟩ = ⟨joinPath path place.2.name, place.2.inode, place.2.kind⟩ := by
  simp [shownAt, Trail.names, render, joinPath]

theorem under_injective (place : Place) : Function.Injective (Trail.under place) := by
  intro one other same
  cases one
  cases other
  simpa [Trail.under] using same

/-- The trails below an entry that is not a directory, or below one that is. -/
structure Sub (fs : Filesystem) (entry : Listing) (trails : List Trail) : Prop where
  mem : ∀ trail, trail ∈ trails ↔ entry.kind = .directory ∧
    Leads fs (Within fs entry.inode) trail.above trail.entry
  nodup : trails.Nodup
  led : LedFrom Trail.Holds (fun _ => False) trails

/-- One more entry in front: its own trail, those below it, those of the later entries. -/
theorem Lists.cons {i : Nat} {entry : Listing} {is : List Nat} {below trails : List Trail}
    (listed : fs.listEntry i = .ok entry) (fresh : i ∉ is) (sub : Sub fs entry below)
    (lists : Lists fs (· ∈ is) trails) :
    Lists fs (· ∈ i :: is)
      (⟨[], (i, entry)⟩ :: (below.map (Trail.under (i, entry)) ++ trails)) := by
  have own : ∀ {other : Place}, other.1 = i → fs.listEntry other.1 = .ok other.2 →
      other = (i, entry) := by
    rintro ⟨_, other⟩ rfl reads
    rw [listed] at reads
    cases reads
    rfl
  have later : ∀ trail ∈ trails, trail.above = [] ∧ trail.entry.1 ∈ is ∨
      ∃ place rest, trail.above = place :: rest ∧ place.1 ∈ is := by
    intro trail member
    have leads := (lists.mem trail).mp member
    cases above : trail.above with
    | nil =>
      rw [above] at leads
      exact Or.inl ⟨rfl, leads.1⟩
    | cons place rest =>
      rw [above] at leads
      exact Or.inr ⟨place, rest, rfl, leads.1⟩
  constructor
  · rintro ⟨above, last⟩
    simp only [List.mem_cons, List.mem_append, List.mem_map]
    cases above with
    | nil =>
      simp only [Leads]
      constructor
      · rintro (same | ⟨below, _, same⟩ | member)
        · cases same
          exact ⟨Or.inl rfl, listed⟩
        · cases same
        · obtain ⟨member, reads⟩ := (lists.mem _).mp member
          exact ⟨Or.inr member, reads⟩
      · rintro ⟨here | member, reads⟩
        · rw [own here reads]
          exact Or.inl rfl
        · exact Or.inr (Or.inr ((lists.mem ⟨[], last⟩).mpr ⟨member, reads⟩))
    | cons place rest =>
      simp only [Leads]
      constructor
      · rintro (same | ⟨trail, member, same⟩ | member)
        · cases same
        · cases same
          obtain ⟨isDir, leads⟩ := (sub.mem trail).mp member
          exact ⟨Or.inl rfl, listed, isDir, leads⟩
        · obtain ⟨member, onward⟩ := (lists.mem _).mp member
          exact ⟨Or.inr member, onward⟩
      · rintro ⟨here | member, reads, isDir, leads⟩
        · obtain rfl := own here reads
          exact Or.inr (Or.inl ⟨⟨rest, last⟩, (sub.mem _).mpr ⟨isDir, leads⟩, rfl⟩)
        · exact Or.inr (Or.inr ((lists.mem ⟨place :: rest, last⟩).mpr
            ⟨member, reads, isDir, leads⟩))
  · rw [List.nodup_cons, List.nodup_append]
    refine ⟨?_, sub.nodup.map (under_injective _), lists.nodup, ?_⟩
    · simp only [List.mem_append, List.mem_map, not_or]
      constructor
      · rintro ⟨trail, _, same⟩
        cases same
      · intro member
        rcases later _ member with ⟨_, member⟩ | ⟨_, _, above, _⟩
        · exact fresh member
        · cases above
    · rintro _ moved other member rfl
      obtain ⟨trail, _, rfl⟩ := List.mem_map.mp moved
      rcases later _ member with ⟨above, _⟩ | ⟨place, rest, above, member⟩
      · cases above
      · cases above
        exact fresh member
  · refine ⟨?_, LedFrom.append (sub.led.map (fun _ => False.elim) ?_) (lists.led.mono (by simp))⟩
    · rintro p above
      exact absurd above (by simp [Trail.Holds])
    · rintro ⟨above, last⟩ trail _ holds
      cases above with
      | nil =>
        simp only [Trail.Holds, Trail.under, List.nil_append, List.cons.injEq] at holds
        rw [← holds.1]
        exact Or.inl (Or.inr rfl)
      | cons place rest =>
        simp only [Trail.Holds, Trail.under, List.cons_append, List.cons.injEq] at holds
        obtain ⟨rfl, holds⟩ := holds
        exact Or.inr ⟨⟨rest, last⟩, holds, rfl⟩

/-- `walk_inner` appends what it says about the trails below a directory. -/
def Walked (fs : Filesystem) (d : UInt32) : Prop :=
  ∃ depth trails, Lists fs (Within fs d) trails ∧ ∀ path out,
    fs.walkInner depth d path out = some (.ok (out ++ trails.map (shownAt path)))

theorem walkEntries_trails {is : List Nat} {entries : List Listing}
    (listed : List.Forall₂ (fun i entry => fs.listEntry i = .ok entry) is entries)
    (distinct : is.Nodup)
    (below : ∀ entry ∈ entries, entry.kind = .directory → Walked fs entry.inode) :
    ∃ depth trails, Lists fs (· ∈ is) trails ∧ ∀ path out,
      Filesystem.walkEntries (fs.walkInner depth) path entries out =
        some (.ok (out ++ trails.map (shownAt path))) := by
  induction listed with
  | nil =>
    refine ⟨0, [], ⟨?_, List.nodup_nil, trivial⟩, by simp [Filesystem.walkEntries]⟩
    rintro ⟨above, entry⟩
    cases above <;> simp [Leads]
  | @cons i entry is entries reads listed ih =>
    obtain ⟨fresh, distinct⟩ := List.nodup_cons.mp distinct
    obtain ⟨later, trails, lists, onward⟩ :=
      ih distinct fun entry member => below entry (List.mem_cons_of_mem _ member)
    by_cases isDir : entry.kind = .directory
    · obtain ⟨here, sub, subLists, inner⟩ := below entry (by simp) isDir
      have subs : Sub fs entry sub :=
        ⟨fun trail => (subLists.mem trail).trans (by simp [isDir]), subLists.nodup, subLists.led⟩
      refine ⟨max here later, _, lists.cons reads fresh subs, fun path out => ?_⟩
      have walked := walkInner_mono (Nat.le_max_left here later)
        (inner (joinPath path entry.name) (out ++ [⟨joinPath path entry.name, entry.inode, .directory⟩]))
      have rest := walkEntries_mono
        (fun _ _ _ _ shallow => walkInner_mono (Nat.le_max_right here later) shallow)
        (onward path (out ++ [⟨joinPath path entry.name, entry.inode, .directory⟩] ++
          sub.map (shownAt (joinPath path entry.name))))
      simp only [Filesystem.walkEntries, isDir, if_true, walked, rest]
      simp [shownAt_single, shownAt_under, Function.comp_def, isDir]
    · have subs : Sub fs entry [] := ⟨by simp [isDir], List.nodup_nil, trivial⟩
      refine ⟨later, _, lists.cons reads fresh subs, fun path out => ?_⟩
      simp only [Filesystem.walkEntries, isDir, if_false, onward]
      simp [shownAt_single]

/-- A finite directory is walked trail by trail. -/
theorem walked_of_sound {d : UInt32} (sound : Sound fs d) : Walked fs d := by
  induction sound with
  | @listed d entries read _ ih =>
    obtain ⟨_, start, stop, range, ordered, listed⟩ := readDir_eq_ok read
    obtain ⟨depth, trails, lists, walked⟩ := walkEntries_trails listed List.nodup_range' ih
    have same : (Within fs d) = (· ∈ List.range' start (stop - start)) :=
      funext fun i => propext (within_iff range ordered)
    refine ⟨depth + 1, trails, same ▸ lists, fun path out => ?_⟩
    rw [Filesystem.walkInner, read]
    exact walked path out

end Walk

section Paths

theorem splitPath_append_slash (left right : Bytes) :
    splitPath (left ++ slash :: right) = splitPath left ++ splitPath right := by
  simp [splitPath, List.splitOn_append_cons_self]

theorem splitPath_component {name : Bytes} (nonempty : name ≠ []) (plain : slash ∉ name) :
    splitPath name = [name] := by
  simp [splitPath, List.splitOn_eq_singleton plain, nonempty]

/-- Plain components are read back from the path they make. -/
theorem splitPath_render {names : List Bytes} (plain : ∀ name ∈ names, name ≠ [] ∧ slash ∉ name) :
    splitPath (render names) = names := by
  induction names using List.reverseRecOn with
  | nil => rfl
  | append_singleton names name ih =>
    obtain ⟨nonempty, free⟩ := plain name (by simp)
    have path : render (names ++ [name]) = render names ++ slash :: name := by simp [render]
    rw [path, splitPath_append_slash, splitPath_component nonempty free,
      ih fun other member => plain other (by simp [member])]

theorem not_mem_of_mem_splitOn {α : Type} [DecidableEq α] {sep : α} {xs piece : List α}
    (member : piece ∈ xs.splitOn sep) : sep ∉ piece := by
  induction xs generalizing piece with
  | nil =>
    rw [List.splitOn_nil, List.mem_singleton] at member
    simp [member]
  | cons x rest ih =>
    rw [List.splitOn_cons_eq_if_modifyHead] at member
    by_cases same : x = sep
    · simp only [same, beq_self_eq_true, if_true, List.mem_cons] at member
      rcases member with rfl | member
      · simp
      · exact ih member
    · simp only [beq_iff_eq, same, if_false] at member
      cases pieces : rest.splitOn sep with
      | nil => exact absurd pieces (List.splitOn_ne_nil sep rest)
      | cons first others =>
        rw [pieces, List.modifyHead_cons, List.mem_cons] at member
        rw [pieces] at ih
        rcases member with rfl | member
        · simp only [List.mem_cons, not_or]
          exact ⟨fun eq => same eq.symm, ih (by simp)⟩
        · exact ih (by simp [member])

theorem splitPath_plain (path : Bytes) : ∀ name ∈ splitPath path, name ≠ [] ∧ slash ∉ name := by
  intro name member
  obtain ⟨piece, nonempty⟩ := List.mem_filter.mp member
  exact ⟨by simpa using nonempty, not_mem_of_mem_splitOn piece⟩

end Paths

section Lookup

variable {fs : Filesystem}

/-- Where the names are in order, the search finds an entry by its name, and nothing under
any other name. -/
theorem lookupOne_listed (named : Named fs) {d : UInt32} {entries : List Listing}
    (read : fs.readDir d = .ok entries) :
    (∀ i entry, Within fs d i → fs.listEntry i = .ok entry →
      fs.lookupOne d entry.name = .ok (some entry.inode)) ∧
    ∀ name, (∀ i entry, Within fs d i → fs.listEntry i = .ok entry → entry.name ≠ name) →
      fs.lookupOne d name = .ok none := by
  obtain ⟨_, start, stop, range, ordered, listed⟩ := readDir_eq_ok read
  obtain ⟨_, sorted⟩ := named d entries read
  rw [List.pairwise_iff_getElem] at sorted
  have count : entries.length = stop - start := by
    rw [← listed.length_eq, List.length_range']
  have at_ : ∀ i, start ≤ i → i < stop → ∃ (bound : i - start < entries.length),
      fs.listEntry i = .ok entries[i - start] := by
    intro i low high
    refine ⟨by omega, ?_⟩
    have reads := listed.get (i := i - start) (by simp; omega) (by omega)
    simpa [Nat.add_sub_cancel' low] using reads
  let name (i : Nat) : Bytes := (entries[i - start]?.map Listing.name).getD []
  let inode (i : Nat) : UInt32 := (entries[i - start]?.map Listing.inode).getD 0
  have probed : ∀ sought i, start ≤ i → i < stop →
      fs.compareEntry sought i = .ok (compare (name i) sought, inode i) := by
    intro sought i low high
    obtain ⟨bound, reads⟩ := at_ i low high
    rw [(listEntry_eq_ok reads).2 sought]
    simp [name, inode, bound]
  have rising : ∀ i j, start ≤ i → i < j → j < stop → compare (name i) (name j) = .lt := by
    intro i j low between high
    have less := sorted (i - start) (j - start) (by omega) (by omega) (by omega)
    simpa [name, show i - start < entries.length by omega,
      show j - start < entries.length by omega] using less
  constructor
  · intro i entry within reads
    rw [within_iff range ordered, List.mem_range'_1] at within
    obtain ⟨bound, reads'⟩ := at_ i within.1 (by omega)
    rw [reads] at reads'
    cases reads'
    have own : name i = entries[i - start].name := by simp [name, bound]
    have found : inode i = entries[i - start].inode := by simp [inode, bound]
    simp only [Filesystem.lookupOne, range, ok_bind]
    rw [← own, ← found]
    apply Lib.Bisect.find_hit (probed (name i)) within.1 (by omega) Std.ReflCmp.compare_self
    · intro j low high
      exact rising j i low high (by omega)
    · intro j low high
      exact Std.OrientedCmp.gt_iff_lt.mpr (rising i j within.1 low high)
  · intro sought absent
    simp only [Filesystem.lookupOne, range, ok_bind]
    apply Lib.Bisect.find_miss (probed sought)
    intro i low high same
    obtain ⟨bound, reads⟩ := at_ i low high
    apply absent i _ ((within_iff range ordered).mpr (List.mem_range'_1.mpr ⟨low, by omega⟩)) reads
    have own : name i = entries[i - start].name := by simp [name, bound]
    rw [← own]
    exact Std.LawfulEqCmp.eq_of_compare same

/-- What is read within a finite directory is in its listing. -/
theorem listed_of_within {d : UInt32} (sound : Sound fs d) {i : Nat} {entry : Listing}
    (within : Within fs d i) (reads : fs.listEntry i = .ok entry) :
    ∃ entries, fs.readDir d = .ok entries ∧ entry ∈ entries ∧
      (entry.kind = .directory → Sound fs entry.inode) := by
  cases sound with
  | listed read below =>
    obtain ⟨_, start, stop, range, ordered, listed⟩ := readDir_eq_ok read
    obtain ⟨k, bound, here⟩ := List.getElem_of_mem ((within_iff range ordered).mp within)
    have same := listed.get bound (listed.length_eq ▸ bound)
    simp only [List.get_eq_getElem, here, reads, Except.ok.injEq] at same
    have member := same ▸ List.getElem_mem (listed.length_eq ▸ bound)
    exact ⟨_, read, member, below entry member⟩

/-- The names of a trail are names of a listing. -/
theorem names_plain (named : Named fs) {d : UInt32} (sound : Sound fs d) {above : List Place}
    {entry : Place} (leads : Leads fs (Within fs d) above entry) :
    ∀ name ∈ Trail.names ⟨above, entry⟩, name ≠ [] ∧ slash ∉ name := by
  have plain : ∀ {d}, Sound fs d → ∀ {place : Place}, Within fs d place.1 →
      fs.listEntry place.1 = .ok place.2 → place.2.name ≠ [] ∧ slash ∉ place.2.name := by
    intro d sound place within reads
    obtain ⟨entries, read, member, _⟩ := listed_of_within sound within reads
    exact (named d entries read).1 _ member
  induction above generalizing d with
  | nil =>
    intro name member
    simp only [Trail.names, List.nil_append, List.map_cons, List.map_nil,
      List.mem_singleton] at member
    exact member ▸ plain sound leads.1 leads.2
  | cons place rest ih =>
    obtain ⟨within, reads, isDir, onward⟩ := leads
    intro name member
    simp only [Trail.names, List.cons_append, List.map_cons, List.mem_cons] at member
    rcases member with rfl | member
    · exact plain sound within reads
    · obtain ⟨_, _, _, below⟩ := listed_of_within sound within reads
      exact ih (below isDir) onward name member

/-- A lookup goes no further than a file. -/
theorem lookupFrom_file {inode : UInt32} {kind : InodeKind} (known : fs.kind inode = .ok kind)
    (file : kind ≠ .directory) {name : Bytes} (nonempty : name ≠ []) (rest : List Bytes)
    (found : UInt32) : fs.lookupFrom inode (name :: rest) ≠ .ok found := by
  simp [Filesystem.lookupFrom, nonempty, known, refuseIf_of file]

/-- From a finite directory, a lookup follows the trail with the names it is given. -/
theorem lookupFrom_eq_ok (named : Named fs) {d : UInt32} (sound : Sound fs d)
    {names : List Bytes} (nonempty : ∀ name ∈ names, name ≠ []) {found : UInt32} :
    fs.lookupFrom d names = .ok found ↔ (names = [] ∧ d = found) ∨
      ∃ trail : Trail, Leads fs (Within fs d) trail.above trail.entry ∧ trail.names = names ∧
        trail.entry.2.inode = found := by
  have some_ : ∀ trail : Trail, trail.names ≠ [] := by simp [Trail.names]
  induction names generalizing d with
  | nil => simp [Filesystem.lookupFrom, some_]
  | cons name rest ih =>
    have nonemptyRest := fun other member => nonempty other (List.mem_cons_of_mem name member)
    obtain ⟨entries, read⟩ : ∃ entries, fs.readDir d = .ok entries := by
      cases sound with
      | listed read _ => exact ⟨_, read⟩
    obtain ⟨hit, miss⟩ := lookupOne_listed named read
    obtain ⟨isDir, _⟩ := readDir_eq_ok read
    have step : fs.lookupFrom d (name :: rest) = (fs.lookupOne d name >>= fun found =>
        okOr found (corrupt s!"no entry {shown name} in inode {d}") >>= fun next =>
          fs.lookupFrom next rest) := by
      simp [Filesystem.lookupFrom, nonempty name (by simp), isDir, refuseIf]
    rw [step]
    simp only [reduceCtorEq, false_and, false_or]
    constructor
    · intro looked
      by_cases present : ∃ i entry, Within fs d i ∧ fs.listEntry i = .ok entry ∧ entry.name = name
      · obtain ⟨i, entry, within, reads, rfl⟩ := present
        rw [hit i entry within reads, ok_bind, okOr_some, ok_bind] at looked
        by_cases entryDir : entry.kind = .directory
        · obtain ⟨_, _, _, below⟩ := listed_of_within sound within reads
          rcases (ih (below entryDir) nonemptyRest).mp looked with
            ⟨rfl, rfl⟩ | ⟨trail, leads, rfl, rfl⟩
          · exact ⟨⟨[], (i, entry)⟩, ⟨within, reads⟩, rfl, rfl⟩
          · exact ⟨trail.under (i, entry), ⟨within, reads, entryDir, leads⟩, rfl, rfl⟩
        · cases rest with
          | nil =>
            cases looked
            exact ⟨⟨[], (i, entry)⟩, ⟨within, reads⟩, rfl, rfl⟩
          | cons other rest =>
            exact absurd looked (lookupFrom_file (listEntry_eq_ok reads).1 entryDir
              (nonemptyRest other (by simp)) rest found)
      · have absent := miss name fun i entry within reads same =>
          present ⟨i, entry, within, reads, same⟩
        rw [absent, ok_bind, okOr_none, error_bind] at looked
        cases looked
    · rintro ⟨⟨above, i, entry⟩, leads, names, rfl⟩
      cases above with
      | nil =>
        obtain ⟨within, reads⟩ := leads
        cases names
        rw [hit i entry within reads]
        rfl
      | cons place above =>
        obtain ⟨within, reads, placeDir, onward⟩ := leads
        cases names
        rw [hit place.1 place.2 within reads, ok_bind, okOr_some, ok_bind]
        obtain ⟨_, _, _, below⟩ := listed_of_within sound within reads
        exact (ih (below placeDir) nonemptyRest).mpr
          (Or.inr ⟨⟨above, i, entry⟩, onward, rfl, rfl⟩)

/-- The last place of a trail was read from the table. -/
theorem listEntry_of_leads {among : Nat → Prop} {above : List Place} {entry : Place}
    (leads : Leads fs among above entry) : fs.listEntry entry.1 = .ok entry.2 := by
  induction above generalizing among with
  | nil => exact leads.2
  | cons place rest ih => exact ih leads.2.2.2

end Lookup

section Agreement

/-- The walk of a finite tree is the root and then every trail once, directories first, and a
path is found exactly when the walk shows it, with the inode and the kind shown. -/
theorem walk_lookup_agree (fs : Filesystem) (tree : FiniteTree fs) (named : Named fs) :
    ∃ depth trails,
      fs.walk depth = some (.ok (⟨[], 0, .directory⟩ :: trails.map (shownAt []))) ∧
      (∀ trail, trail ∈ trails ↔ Reached fs trail) ∧
      (trails.map (·.entry.1)).Nodup ∧
      (∀ before trail after directory, trails = before ++ trail :: after →
        directory.Holds trail → directory ∈ before) ∧
      ∀ path node, fs.lookup path = .ok node ↔
        ∃ entry ∈ ⟨[], 0, .directory⟩ :: trails.map (shownAt []),
          entry.path = render (splitPath path) ∧ entry.inode = node.inode ∧
            entry.kind = node.kind := by
  obtain ⟨depth, trails, lists, walked⟩ := walked_of_sound tree.finite
  have root : fs.kind 0 = .ok .directory := by
    cases tree.finite with
    | listed read _ => exact (readDir_eq_ok read).1
  refine ⟨depth, trails, ?_, lists.mem, ?_, ?_, ?_⟩
  · simp only [Filesystem.walk, root, walked]
    rfl
  · apply List.Nodup.map_on _ lists.nodup
    intro one member other member' same
    exact tree.once one other ((lists.mem one).mp member) ((lists.mem other).mp member') same
  · intro before trail after directory split holds
    rcases lists.led.before split holds with none_ | found
    · exact none_.elim
    · exact found
  · intro path node
    have plain := splitPath_plain path
    have shows : ∀ trail, Reached fs trail →
        (render trail.names = render (splitPath path) ↔ trail.names = splitPath path) := by
      intro trail reached
      refine ⟨fun same => ?_, fun same => by rw [same]⟩
      have names := names_plain named tree.finite reached
      rw [← splitPath_render names, ← splitPath_render plain]
      exact congrArg splitPath same
    have found : ∀ inode, fs.lookupFrom 0 (splitPath path) = .ok inode ↔ _ := fun inode =>
      lookupFrom_eq_ok named tree.finite fun name member => (plain name member).1
    simp only [Filesystem.lookup, bind_eq_ok, found, pure_eq_ok, Except.ok.injEq]
    simp only [List.mem_cons, List.mem_map]
    constructor
    · rintro ⟨inode, ⟨none_, rfl⟩ | ⟨trail, leads, names, rfl⟩, kind, known, rfl⟩
      · rw [root] at known
        cases known
        exact ⟨_, Or.inl rfl, by simp [none_, render], rfl, rfl⟩
      · have kinds := (listEntry_eq_ok (listEntry_of_leads leads)).1
        rw [known] at kinds
        cases kinds
        refine ⟨_, Or.inr ⟨trail, (lists.mem trail).mpr leads, rfl⟩, ?_, rfl, rfl⟩
        simp [shownAt, names]
    · rintro ⟨_, rfl | ⟨trail, member, rfl⟩, same, inode, kind⟩
      · refine ⟨0, Or.inl ⟨?_, rfl⟩, .directory, root, ?_⟩
        · have empty : splitPath (render (splitPath path)) = [] := by
            rw [← same]
            rfl
          rw [← splitPath_render plain, empty]
        · cases node
          cases inode
          cases kind
          rfl
      · have reached := (lists.mem trail).mp member
        have kinds := (listEntry_eq_ok (listEntry_of_leads reached)).1
        refine ⟨trail.entry.2.inode, Or.inr ⟨trail, reached, (shows trail reached).mp ?_, rfl⟩,
          trail.entry.2.kind, kinds, ?_⟩
        · simpa [shownAt] using same
        · cases node
          cases inode
          cases kind
          rfl

section Sample

open OpenedFilesystem

/-- The root holds the directory `a` and the file `b`, and `a` the files `c` and `d`. -/
def nestedTables : Tables :=
  { rootTables [] 1 [0o040755, 0o040755, 0o100644, 0o100644, 0o100644] with
    uids := [0], gids := [0], directories := [⟨0, 1, 0⟩, ⟨0, 3, 1⟩, ⟨0, 5, 0⟩]
    dirEntries := [⟨0, 0⟩, ⟨0, 1⟩, ⟨1, 2⟩, ⟨2, 3⟩, ⟨3, 4⟩]
    names := { data := [97, 98, 99, 100], offsets := [0, 1, 2, 3, 4] }
    chunkTable := [0, 0, 0, 0] }

def nested : Filesystem := filesystem climbingImage nestedTables [] ⟨0, 5, 2, 5, 5, 5, 5⟩

example : Filesystem.ofTables climbingImage nestedTables = .ok nested :=
  ofTables_unpacked rfl rfl (by decide) (by decide)

def nestedRoot : List Listing := [⟨1, .directory, [97]⟩, ⟨2, .regular, [98]⟩]

def nestedBelow : List Listing := [⟨3, .regular, [99]⟩, ⟨4, .regular, [100]⟩]

theorem readDir_nested : nested.readDir 0 = .ok nestedRoot ∧ nested.readDir 1 = .ok nestedBelow := by
  decide

theorem nested_inode {inode : UInt32} {kind : InodeKind} (known : nested.kind inode = .ok kind) :
    inode = 0 ∨ inode = 1 ∨ inode = 2 ∨ inode = 3 ∨ inode = 4 := by
  by_cases inside : inode.toNat < 5
  · simp only [← UInt32.toNat_inj]
    exact (by omega : inode.toNat = 0 ∨ inode.toNat = 1 ∨ inode.toNat = 2 ∨ inode.toNat = 3 ∨
      inode.toNat = 4)
  · have beyond : inode.toNat ≥ nested.inodes.length := Nat.not_lt.mp inside
    simp [Filesystem.kind, Filesystem.modeOf, Filesystem.inodeIndex, refuseIf_of beyond] at known

theorem nested_directory {d : UInt32} {entries : List Listing}
    (read : nested.readDir d = .ok entries) :
    d = 0 ∧ entries = nestedRoot ∨ d = 1 ∧ entries = nestedBelow := by
  have kind := (readDir_eq_ok read).1
  rcases nested_inode kind with rfl | rfl | rfl | rfl | rfl
  · exact Or.inl ⟨rfl, Except.ok.inj (read.symm.trans readDir_nested.1)⟩
  · exact Or.inr ⟨rfl, Except.ok.inj (read.symm.trans readDir_nested.2)⟩
  all_goals exact absurd kind (by decide)

theorem nested_named : Named nested := by
  intro d entries read
  rcases nested_directory read with ⟨-, rfl⟩ | ⟨-, rfl⟩
  · exact ⟨by decide, by decide⟩
  · exact ⟨by decide, by decide⟩

/-- What leads on from the root, and from the directory below it. -/
theorem nested_within {place : Place} (listed : nested.listEntry place.1 = .ok place.2) :
    (Within nested 0 place.1 →
      place = (1, ⟨1, .directory, [97]⟩) ∨ place = (2, ⟨2, .regular, [98]⟩)) ∧
    (Within nested 1 place.1 →
      place = (3, ⟨3, .regular, [99]⟩) ∨ place = (4, ⟨4, .regular, [100]⟩)) := by
  have root : nested.dirEntryRange 0 = .ok (1, 3) := by decide
  have below : nested.dirEntryRange 1 = .ok (3, 5) := by decide
  have reads : (nested.listEntry 1 = .ok ⟨1, .directory, [97]⟩ ∧
      nested.listEntry 2 = .ok ⟨2, .regular, [98]⟩) ∧
      nested.listEntry 3 = .ok ⟨3, .regular, [99]⟩ ∧
      nested.listEntry 4 = .ok ⟨4, .regular, [100]⟩ := by decide
  obtain ⟨i, entry⟩ := place
  have own : ∀ {other : Listing}, nested.listEntry i = .ok other → entry = other :=
    fun same => Except.ok.inj (listed.symm.trans same)
  constructor
  · intro within
    rw [within_iff root (by omega), List.mem_range'_1] at within
    rcases (by omega : i = 1 ∨ i = 2) with rfl | rfl
    · exact Or.inl (by rw [own reads.1.1])
    · exact Or.inr (by rw [own reads.1.2])
  · intro within
    rw [within_iff below (by omega), List.mem_range'_1] at within
    rcases (by omega : i = 3 ∨ i = 4) with rfl | rfl
    · exact Or.inl (by rw [own reads.2.1])
    · exact Or.inr (by rw [own reads.2.2])

theorem nested_reached {trail : Trail} (reached : Reached nested trail) :
    trail.above = [] ∧ trail.entry.1 ≤ 2 ∨
      trail.above = [(1, ⟨1, .directory, [97]⟩)] ∧ 3 ≤ trail.entry.1 := by
  obtain ⟨above, entry⟩ := trail
  cases above with
  | nil =>
    rcases (nested_within reached.2).1 reached.1 with rfl | rfl
    · exact Or.inl ⟨rfl, by decide⟩
    · exact Or.inl ⟨rfl, by decide⟩
  | cons place rest =>
    obtain ⟨within, listed, isDir, onward⟩ := reached
    rcases (nested_within listed).1 within with rfl | rfl
    · cases rest with
      | nil =>
        rcases (nested_within onward.2).2 onward.1 with rfl | rfl
        · exact Or.inr ⟨rfl, by decide⟩
        · exact Or.inr ⟨rfl, by decide⟩
      | cons next later =>
        obtain ⟨within, listed, isDir, -⟩ := onward
        rcases (nested_within listed).2 within with rfl | rfl
        · cases isDir
        · cases isDir
    · cases isDir

theorem nested_tree : FiniteTree nested := by
  refine ⟨.listed readDir_nested.1 ?_, fun one other first second same => ?_⟩
  · intro entry member isDir
    simp only [nestedRoot, List.mem_cons, List.not_mem_nil, or_false] at member
    rcases member with rfl | rfl
    · exact .listed readDir_nested.2 (by simp [nestedBelow])
    · cases isDir
  · have here := listEntry_of_leads first
    rw [same, listEntry_of_leads second, Except.ok.injEq] at here
    have entries : one.entry = other.entry := Prod.ext same here.symm
    have aboves : one.above = other.above := by
      rcases nested_reached first with ⟨above, low⟩ | ⟨above, high⟩
      · rcases nested_reached second with ⟨above', -⟩ | ⟨-, high⟩
        · rw [above, above']
        · omega
      · rcases nested_reached second with ⟨-, low⟩ | ⟨above', -⟩
        · omega
        · rw [above, above']
    cases one
    cases other
    cases entries
    cases aboves
    rfl

theorem walk_lookup_agree_nested :
    ∃ depth out, nested.walk depth = some (.ok out) ∧
      ∃ entry ∈ out, entry.path = [slash, 97, slash, 100] ∧ entry.inode = 4 := by
  obtain ⟨depth, trails, walked, _, _, _, found⟩ :=
    walk_lookup_agree nested nested_tree nested_named
  obtain ⟨entry, member, path, inode, -⟩ :=
    (found [97, slash, 100] ⟨4, .regular⟩).mp (by decide +kernel)
  exact ⟨depth, _, walked, entry, member, by rw [path]; decide, inode⟩

end Sample

end Agreement

end Rdwarfs.Guarantees.TreeAgreement
