import Rdwarfs.Source.FuseSession
import Rdwarfs.Guarantees.AccessorSafety
import Rdwarfs.Guarantees.DirectoryPages

/-!
# The tree that a mount shows

A client reads directories page by page and descends into those it finds; the kernel resolves a path
by one lookup a component. Both see the tree that `walk` and `lookup` describe.
-/
namespace Rdwarfs.Guarantees.MountedTree

open Lib.Machine Lib.Paging Source Source.Fuse
open Source.Fs hiding childOf
open OpenedFilesystem AccessorSafety TreeAgreement DirectoryPages

structure Found where
  path : Bytes
  ino : Nat
  kind : FileType
  deriving DecidableEq, Repr

/-- What `walk` says of an entry, as the mount shows it. -/
def shown (entry : WalkEntry) : Found :=
  ⟨entry.path, fuseIno entry.inode, fileType entry.kind⟩

section Client

variable (fs : Filesystem)

/-- The entries of a directory, accepted page after page until a page adds nothing. -/
def PagedThrough (ino : Nat) (entries : List Fuse.Entry) : Prop :=
  ∃ requests accepted last cookie room,
    Accepted (fun request => readdir fs ino request.cookie request.room) requests accepted ∧
    accepted.getLast? = some (last, cookie) ∧ 0 < room ∧ readdir fs ino cookie room = .ok [] ∧
    accepted.map Prod.fst = entries

/-- A client passes over the two dot entries. -/
def others (entries : List Fuse.Entry) : List Fuse.Entry :=
  entries.filter fun entry => entry.name ≠ dotName ∧ entry.name ≠ dotDotName

/-- What a client finds below `path`, given the entries there. -/
inductive Finds : Bytes → List Fuse.Entry → List Found → Prop
  | nil (path : Bytes) : Finds path [] []
  | leaf {path : Bytes} {entry : Fuse.Entry} {rest : List Fuse.Entry} {found : List Found}
      (file : entry.kind ≠ .directory) (later : Finds path rest found) :
      Finds path (entry :: rest) (⟨joinPath path entry.name, entry.ino, entry.kind⟩ :: found)
  | directory {path : Bytes} {entry : Fuse.Entry} {rest entries : List Fuse.Entry}
      {below found : List Found} (isDir : entry.kind = .directory)
      (paged : PagedThrough fs entry.ino entries)
      (inside : Finds (joinPath path entry.name) (others entries) below)
      (later : Finds path rest found) :
      Finds path (entry :: rest)
        (⟨joinPath path entry.name, entry.ino, entry.kind⟩ :: (below ++ found))

/-- No entry is called like a dot entry. -/
def Undotted : Prop :=
  ∀ dir entries, fs.readDir dir = .ok entries →
    ∀ entry ∈ entries, entry.name ≠ dotName ∧ entry.name ≠ dotDotName

end Client

section Listing

variable {fs : Filesystem} {dir : UInt32} {entries : List Listing}
  (resolves : fs.readDir dir = .ok entries)

include resolves

theorem pagedThrough_iff {listed : List Fuse.Entry} :
    PagedThrough fs (fuseIno dir) listed ↔ listed = listing fs dir entries := by
  have answers := fun request : Lib.Paging.Request => readdir_eq resolves request.cookie request.room
  constructor
  · intro paged
    obtain ⟨requests, accepted, last, cookie, room, run, behind, some_, empty, same⟩ := paged
    rw [← same, run.whole answers some_ behind empty, numbered_fst]
  · intro same
    have count : 0 < (listing fs dir entries).length := Nat.succ_pos _
    have whole : readdir fs (fuseIno dir) 0 (listing fs dir entries).length =
        .ok (numbered (listing fs dir entries)) := by
      rw [readdir_eq resolves, page, List.drop_zero, List.take_of_length_le]
      rw [numbered_length]
    obtain ⟨last, ends⟩ : ∃ last, (numbered (listing fs dir entries)).getLast? =
        some (last, (listing fs dir entries).length) := by
      cases ends : (numbered (listing fs dir entries)).getLast? with
      | none =>
        rw [List.getLast?_eq_none_iff, ← List.length_eq_zero_iff, numbered_length] at ends
        omega
      | some last =>
        have counted := cookie_eq_length (List.prefix_refl _) ends
        rw [numbered_length] at counted
        exact ⟨last.1, by rw [← counted]⟩
    refine ⟨_, _, last, _, 1, .start .nothing count whole, ends, Nat.one_pos, ?_, ?_⟩
    · rw [readdir_eq resolves, page, List.drop_of_length_le (by rw [numbered_length]), List.take_nil]
    · rw [numbered_fst, same]

theorem others_listing (undotted : Undotted fs) :
    others (listing fs dir entries) = entries.map childOf := by
  have kept : ∀ entry ∈ entries.map childOf,
      decide (entry.name ≠ dotName ∧ entry.name ≠ dotDotName) := by
    intro entry member
    obtain ⟨own, listed, same⟩ := List.mem_map.mp member
    rw [← same]
    exact decide_eq_true (undotted dir entries resolves own listed)
  rw [others, listing, List.filter_append, List.filter_eq_self.mpr kept]
  rfl

end Listing

theorem fileType_directory {kind : InodeKind} : fileType kind = .directory ↔ kind = .directory := by
  cases kind <;> simp [fileType]

section Walk

variable {fs : Filesystem} (undotted : Undotted fs)

/-- What a client finds below a directory that walks is what the walk appends. -/
def FoundAs (fs : Filesystem) (path : Bytes) (entries : List Fuse.Entry)
    (added : List WalkEntry) : Prop :=
  ∀ found, Finds fs path entries found ↔ found = added.map shown

theorem foundAs_nil (path : Bytes) : FoundAs fs path [] [] := by
  intro found
  constructor
  · intro finds
    cases finds
    rfl
  · intro none_
    subst none_
    exact .nil path

theorem foundAs_leaf {path : Bytes} {entry : Listing} {rest : List Fuse.Entry}
    {added : List WalkEntry} (file : entry.kind ≠ .directory) (later : FoundAs fs path rest added) :
    FoundAs fs path (childOf entry :: rest)
      (⟨joinPath path entry.name, entry.inode, entry.kind⟩ :: added) := by
  have leaf : (childOf entry).kind ≠ .directory := fun isDir => file (fileType_directory.mp isDir)
  intro found
  constructor
  · intro finds
    cases finds with
    | leaf _ more =>
      rw [(later _).mp more]
      rfl
    | directory isDir => exact absurd isDir leaf
  · intro same
    subst same
    exact .leaf leaf ((later _).mpr rfl)

include undotted

theorem foundAs_directory {path : Bytes} {entry : Listing} {rest : List Fuse.Entry}
    {entries : List Listing} {inner added : List WalkEntry} (isDir : entry.kind = .directory)
    (resolves : fs.readDir entry.inode = .ok entries)
    (inside : FoundAs fs (joinPath path entry.name) (entries.map childOf) inner)
    (later : FoundAs fs path rest added) :
    FoundAs fs path (childOf entry :: rest)
      (⟨joinPath path entry.name, entry.inode, entry.kind⟩ :: (inner ++ added)) := by
  have descends : (childOf entry).kind = .directory := fileType_directory.mpr isDir
  have kept := others_listing resolves undotted
  intro found
  constructor
  · intro finds
    cases finds with
    | leaf file => exact absurd descends file
    | directory _ paged below more =>
      rw [(pagedThrough_iff resolves).mp paged, kept] at below
      rw [(inside _).mp below, (later _).mp more, List.map_cons, List.map_append]
      rfl
  · intro same
    subst same
    rw [List.map_cons, List.map_append]
    apply Finds.directory descends ((pagedThrough_iff resolves).mpr rfl)
    · rw [kept]
      exact (inside _).mpr rfl
    · exact (later _).mpr rfl

theorem foundAs_walkEntries
    {descend : UInt32 → Bytes → List WalkEntry → Option (Result (List WalkEntry))}
    (below : ∀ d path out out', descend d path out = some (.ok out') →
      ∃ entries added, fs.readDir d = .ok entries ∧ out' = out ++ added ∧
        FoundAs fs path (entries.map childOf) added)
    {entries : List Listing} {path : Bytes} {out out' : List WalkEntry}
    (walked : Filesystem.walkEntries descend path entries out = some (.ok out')) :
    ∃ added, out' = out ++ added ∧ FoundAs fs path (entries.map childOf) added := by
  induction entries generalizing out with
  | nil =>
    cases walked
    exact ⟨[], (List.append_nil _).symm, foundAs_nil path⟩
  | cons entry rest ih =>
    rw [Filesystem.walkEntries] at walked
    by_cases isDir : entry.kind = .directory
    · simp only [isDir, if_true] at walked
      cases descended : descend entry.inode (joinPath path entry.name)
          (out ++ [⟨joinPath path entry.name, entry.inode, .directory⟩]) with
      | none =>
        rw [descended] at walked
        cases walked
      | some result =>
        rw [descended] at walked
        cases result with
        | error failure => cases walked
        | ok between =>
          obtain ⟨entries, inner, resolves, same, inside⟩ := below _ _ _ _ descended
          obtain ⟨added, same', later⟩ := ih walked
          refine ⟨_, ?_, foundAs_directory undotted isDir resolves inside later⟩
          rw [same', same, isDir]
          simp
    · simp only [isDir, if_false] at walked
      obtain ⟨added, same, later⟩ := ih walked
      refine ⟨_, ?_, foundAs_leaf isDir later⟩
      rw [same, List.append_assoc, List.singleton_append]

theorem foundAs_walkInner {depth : Nat} {d : UInt32} {path : Bytes} {out out' : List WalkEntry}
    (walked : fs.walkInner depth d path out = some (.ok out')) :
    ∃ entries added, fs.readDir d = .ok entries ∧ out' = out ++ added ∧
      FoundAs fs path (entries.map childOf) added := by
  induction depth generalizing d path out out' with
  | zero => cases walked
  | succ depth ih =>
    rw [Filesystem.walkInner] at walked
    cases resolves : fs.readDir d with
    | error failure =>
      rw [resolves] at walked
      cases walked
    | ok entries =>
      rw [resolves] at walked
      obtain ⟨added, same, found⟩ := foundAs_walkEntries undotted
        (fun _ _ _ _ descended => ih descended) walked
      exact ⟨entries, added, rfl, same, found⟩

/-- A client that lists the mount recursively, in pages of whatever sizes, gets through, and finds
what `walk` lists below the root, in its order. -/
theorem mount_lists_walk {depth : Nat} {entries : List WalkEntry}
    (walked : fs.walk depth = some (.ok entries)) :
    (∃ listed found, PagedThrough fs 1 listed ∧ Finds fs [] (others listed) found) ∧
      ∀ listed found, PagedThrough fs 1 listed → Finds fs [] (others listed) found →
        found = entries.tail.map shown := by
  unfold Filesystem.walk at walked
  cases known : fs.kind 0 with
  | error failure =>
    rw [known] at walked
    cases walked
  | ok kind =>
    rw [known] at walked
    obtain ⟨listings, added, resolves, same, found⟩ := foundAs_walkInner undotted walked
    have paged := @pagedThrough_iff fs 0 listings resolves
    have kept := others_listing resolves undotted
    rw [show fuseIno 0 = 1 from rfl] at paged
    constructor
    · refine ⟨_, added.map shown, paged.mpr rfl, ?_⟩
      rw [kept]
      exact (found _).mpr rfl
    · intro listed found' through finds
      rw [paged.mp through, kept] at finds
      rw [(found _).mp finds, same]
      rfl

end Walk

section Resolve

variable (makedev : UInt32 → UInt32 → UInt64) (fs : Filesystem)

/-- The kernel's way along a path: a lookup in each directory, by the number it was given for it. -/
inductive Resolves : FileAttr → List Bytes → FileAttr → Prop
  | here (attr : FileAttr) : Resolves attr [] attr
  | step {attr next last : FileAttr} {name : Bytes} {rest : List Bytes}
      (isDir : attr.kind = .directory)
      (replied : Fuse.lookup makedev fs (UInt64.ofNat attr.ino) name = .ok (.entry next))
      (onward : Resolves next rest last) : Resolves attr (name :: rest) last

/-- Every directory has attributes. -/
def Attributed : Prop :=
  ∀ dir, fs.kind dir = .ok .directory → ∃ attr, attrOf makedev fs dir = .ok attr

variable {makedev fs}

theorem attrOf_eq_ok {inode : UInt32} {attr : FileAttr}
    (known : attrOf makedev fs inode = .ok attr) :
    attr.ino = fuseIno inode ∧ ∃ kind, fs.kind inode = .ok kind ∧ attr.kind = fileType kind := by
  unfold attrOf at known
  simp only [bind_eq_ok, pure_eq_ok, Except.ok.injEq] at known
  obtain ⟨stat, found, same⟩ := known
  subst same
  simp only [Filesystem.stat, bind_eq_ok, pure_eq_ok, Except.ok.injEq] at found
  obtain ⟨i, inside, info, here, mode, moded, uid, -, gid, -, mtime, -, times, -, size, -, rdev, -,
    same⟩ := found
  subst same
  refine ⟨rfl, modeKind mode, ?_, rfl⟩
  simp only [Filesystem.kind, Filesystem.modeOf, inside, here, moded, ok_bind, pure_eq_ok]

/-- The kernel's number leads back to the directory. -/
theorem lookup_entry_iff {dir : UInt32} {name : Bytes} {next : FileAttr} :
    Fuse.lookup makedev fs (UInt64.ofNat (fuseIno dir)) name = .ok (.entry next) ↔
      ∃ child, fs.lookupChild dir name = .ok (some child) ∧ attrOf makedev fs child = .ok next := by
  have bound := dir.toNat_lt
  have number : (UInt64.ofNat (fuseIno dir)).toNat = fuseIno dir := by
    rw [UInt64.toNat_ofNat', Nat.mod_eq_of_lt]
    rw [fuseIno]
    omega
  unfold Fuse.lookup withIno
  rw [number, dwarfsIno_fuseIno]
  dsimp only
  constructor
  · intro replied
    cases found : fs.lookupChild dir name with
    | error failure =>
      rw [found] at replied
      cases failure <;> cases replied
    | ok child =>
      rw [found] at replied
      cases child with
      | none => cases replied
      | some child =>
        refine ⟨child, rfl, ?_⟩
        simp only [orElse] at replied
        cases known : attrOf makedev fs child with
        | error failure =>
          rw [known] at replied
          cases failure <;> cases replied
        | ok attr =>
          rw [known] at replied
          cases replied
          rfl
  · intro both
    obtain ⟨child, found, known⟩ := both
    rw [found]
    simp only [orElse, known]

theorem lookupFrom_cons {dir : UInt32} {name : Bytes} {rest : List Bytes} (nonempty : name ≠ [])
    {inode : UInt32} :
    fs.lookupFrom dir (name :: rest) = .ok inode ↔
      fs.kind dir = .ok .directory ∧ ∃ child, fs.lookupChild dir name = .ok (some child) ∧
        fs.lookupFrom child rest = .ok inode := by
  simp only [Filesystem.lookupFrom, nonempty, if_false, Filesystem.lookupChild, bind_eq_ok,
    refuseIf_eq_ok, okOr_eq_ok, not_not]
  constructor
  · intro looked
    obtain ⟨kind, known, _, isDir, found, one, child, same, onward⟩ := looked
    subst isDir same
    exact ⟨known, child, ⟨_, known, (), rfl, one⟩, onward⟩
  · intro looked
    obtain ⟨known, child, ⟨kind, known', _, isDir, one⟩, onward⟩ := looked
    exact ⟨_, known, (), rfl, _, one, child, rfl, onward⟩

/-- The kernel gets to where `lookup` does. -/
theorem resolves_iff (attributed : Attributed makedev fs) {names : List Bytes}
    (nonempty : ∀ name ∈ names, name ≠ []) {dir : UInt32} {attr last : FileAttr}
    (known : attrOf makedev fs dir = .ok attr) :
    Resolves makedev fs attr names last ↔
      ∃ inode, fs.lookupFrom dir names = .ok inode ∧ attrOf makedev fs inode = .ok last := by
  induction names generalizing dir attr with
  | nil =>
    constructor
    · intro resolves
      cases resolves
      exact ⟨dir, rfl, known⟩
    · intro found
      obtain ⟨inode, same, own⟩ := found
      cases same
      rw [known] at own
      cases own
      exact .here _
  | cons name rest ih =>
    have some_ := nonempty name List.mem_cons_self
    have onward := fun {child next} => @ih (fun other member => nonempty other
      (List.mem_cons_of_mem name member)) child next
    obtain ⟨number, kind, kindOf, shownKind⟩ := attrOf_eq_ok known
    constructor
    · intro resolves
      cases resolves with
      | step isDir replied more =>
        rw [number] at replied
        obtain ⟨child, found, childKnown⟩ := lookup_entry_iff.mp replied
        obtain ⟨inode, looked, own⟩ := (onward childKnown).mp more
        rw [shownKind, fileType_directory] at isDir
        subst isDir
        exact ⟨inode, (lookupFrom_cons some_).mpr ⟨kindOf, child, found, looked⟩, own⟩
    · intro found
      obtain ⟨inode, looked, own⟩ := found
      obtain ⟨isDir, child, one, looked⟩ := (lookupFrom_cons some_).mp looked
      rw [kindOf, Except.ok.injEq] at isDir
      have childKnown : ∃ next, attrOf makedev fs child = .ok next := by
        cases rest with
        | nil =>
          cases looked
          exact ⟨last, own⟩
        | cons other rest =>
          have otherSome := nonempty other (List.mem_cons_of_mem name List.mem_cons_self)
          exact attributed child ((lookupFrom_cons otherSome).mp looked).1
      obtain ⟨next, childKnown⟩ := childKnown
      refine .step ?_ ?_ ((onward childKnown).mpr ⟨inode, looked, own⟩)
      · rw [shownKind, isDir]
        rfl
      · rw [number]
        exact lookup_entry_iff.mpr ⟨child, one, childKnown⟩

/-- In a finite tree with its names in order, what the kernel resolves from the root by lookups is
what a client finds by listing recursively: the same paths, numbers and types. -/
theorem mount_resolves_found (tree : FiniteTree fs) (named : Named fs) (undotted : Undotted fs)
    (attributed : ∀ inode kind, fs.kind inode = .ok kind →
      ∃ attr, attrOf makedev fs inode = .ok attr)
    {root : FileAttr} (known : attrOf makedev fs 0 = .ok root) {listed : List Fuse.Entry}
    {found : List Found} (paged : PagedThrough fs 1 listed)
    (finds : Finds fs [] (others listed) found) {names : List Bytes} (below : names ≠ [])
    (plain : ∀ name ∈ names, name ≠ [] ∧ slash ∉ name) (ino : Nat) (kind : FileType) :
    (∃ attr, Resolves makedev fs root names attr ∧ attr.ino = ino ∧ attr.kind = kind) ↔
      ⟨render names, ino, kind⟩ ∈ found := by
  obtain ⟨depth, trails, lists, walked⟩ := walked_of_sound tree.finite
  obtain ⟨entries, added, resolves, same, foundAs⟩ := foundAs_walkInner undotted (walked [] [])
  rw [List.nil_append, List.nil_append] at same
  subst same
  rw [(@pagedThrough_iff fs 0 entries resolves).mp paged, others_listing resolves undotted] at finds
  rw [(foundAs _).mp finds, List.mem_map]
  have some_ : ∀ name ∈ names, name ≠ [] := fun name member => (plain name member).1
  constructor
  · intro resolved
    obtain ⟨attr, resolved, number, type⟩ := resolved
    obtain ⟨inode, looked, own⟩ := (resolves_iff
      (fun dir isDir => attributed dir _ isDir) some_ known).mp resolved
    cases (lookupFrom_eq_ok named tree.finite some_).mp looked with
    | inl root_ => exact absurd root_.1 below
    | inr led =>
      obtain ⟨trail, leads, spelled, last⟩ := led
      refine ⟨shownAt [] trail, List.mem_map.mpr ⟨trail, (lists.mem trail).mpr leads, rfl⟩, ?_⟩
      obtain ⟨ownNumber, kind', kindOf, shownKind⟩ := attrOf_eq_ok own
      have kinds := (listEntry_eq_ok (listEntry_of_leads leads)).1
      rw [last, kindOf, Except.ok.injEq] at kinds
      rw [shown, shownAt, spelled, last, ← number, ← type, ownNumber, shownKind, kinds,
        List.nil_append]
  · intro member
    obtain ⟨entry, walkedTo, same⟩ := member
    obtain ⟨trail, member, same'⟩ := List.mem_map.mp walkedTo
    subst same'
    simp only [shown, shownAt, List.nil_append, Found.mk.injEq] at same
    obtain ⟨path, number, type⟩ := same
    have leads := (lists.mem trail).mp member
    have spelled : trail.names = names := by
      rw [← splitPath_render (names_plain named tree.finite leads), path, splitPath_render plain]
    have looked := (lookupFrom_eq_ok named tree.finite some_).mpr
      (Or.inr ⟨trail, leads, spelled, rfl⟩)
    obtain ⟨attr, own⟩ := attributed _ _ (listEntry_eq_ok (listEntry_of_leads leads)).1
    obtain ⟨ownNumber, kind', kindOf, shownKind⟩ := attrOf_eq_ok own
    have kinds := (listEntry_eq_ok (listEntry_of_leads leads)).1
    rw [kindOf, Except.ok.injEq] at kinds
    refine ⟨attr, (resolves_iff (fun dir isDir => attributed dir _ isDir) some_ known).mpr
      ⟨_, looked, own⟩, ?_, ?_⟩
    · rw [ownNumber, number]
    · rw [shownKind, kinds, type]

end Resolve

section Nested

theorem nested_undotted : Undotted nested := by
  intro dir entries resolves
  rcases nested_directory resolves with ⟨-, rfl⟩ | ⟨-, rfl⟩
  · decide
  · decide

theorem nested_attributed (inode : UInt32) (kind : InodeKind) (known : nested.kind inode = .ok kind) :
    ∃ attr, attrOf (fun _ _ => 0) nested inode = .ok attr := by
  rcases nested_inode known with rfl | rfl | rfl | rfl | rfl
  all_goals exact ⟨_, rfl⟩

theorem nested_walk :
    nested.walk 3 = some (.ok [⟨[], 0, .directory⟩, ⟨[slash, 97], 1, .directory⟩,
      ⟨[slash, 97, slash, 99], 3, .regular⟩, ⟨[slash, 97, slash, 100], 4, .regular⟩,
      ⟨[slash, 98], 2, .regular⟩]) := by decide

theorem mount_lists_walk_nested :
    ∃ listed found, PagedThrough nested 1 listed ∧ Finds nested [] (others listed) found :=
  (mount_lists_walk nested_undotted nested_walk).1

def nestedFound : List Found :=
  [⟨[slash, 97], 2, .directory⟩, ⟨[slash, 97, slash, 99], 4, .regularFile⟩,
    ⟨[slash, 97, slash, 100], 5, .regularFile⟩, ⟨[slash, 98], 3, .regularFile⟩]

theorem mount_resolves_found_nested :
    ∃ root attr, Resolves (fun _ _ => 0) nested root [[97], [100]] attr ∧ attr.ino = 5 ∧
      attr.kind = .regularFile := by
  obtain ⟨atRoot, below⟩ := readDir_nested
  have paged : PagedThrough nested 1 (listing nested 0 nestedRoot) :=
    (pagedThrough_iff atRoot).mpr rfl
  have finds : Finds nested [] (others (listing nested 0 nestedRoot)) nestedFound := by
    rw [others_listing atRoot nested_undotted]
    have inside : Finds nested [slash, 97] (others (listing nested 1 nestedBelow))
        [⟨[slash, 97, slash, 99], 4, .regularFile⟩, ⟨[slash, 97, slash, 100], 5, .regularFile⟩] := by
      rw [others_listing below nested_undotted]
      exact .leaf (by decide) (.leaf (by decide) (.nil _))
    have paged : PagedThrough nested 2 (listing nested 1 nestedBelow) :=
      (pagedThrough_iff below).mpr rfl
    have later : Finds nested [] [⟨3, .regularFile, [98]⟩] [⟨[slash, 98], 3, .regularFile⟩] :=
      .leaf (by decide) (.nil _)
    exact @Finds.directory nested [] ⟨2, .directory, [97]⟩ _ _ _ _ rfl paged inside later
  obtain ⟨root, known⟩ := nested_attributed 0 .directory (by decide)
  exact ⟨root, (mount_resolves_found nested_tree nested_named nested_undotted nested_attributed known
    paged finds (by decide) (by decide) 5 .regularFile).mpr (by decide)⟩

end Nested

end Rdwarfs.Guarantees.MountedTree
