import Rdwarfs.Guarantees.ExtractedTree
import Rdwarfs.Guarantees.TarFidelity
import Rdwarfs.Source.DwarfsckReport

/-!
# Three ways to list a tree

`dwarfsck --list`, an archive and an extraction go through the same walk, each with code of its
own for names, links and data. For a sound tree whose names are text they come to the same: the
lines are the members' names, and unpacking the archive gives what the extraction gives.
-/
namespace Rdwarfs.Guarantees.ArchivedTree

open Lib.Machine Lib.UnixPath Lib.Interleaving Lib.FileTree Source Source.Fs Source.Codecs
open Extraction BlockReads OpenedFilesystem FileContents ReadContract WrittenFiles PlacedEntries
open Selections ExtractRuns ExtractedTree TarFidelity

section Unpacking

/-- Where an unpacker puts a member. -/
def placeOf (dest : Path) (member : Member) : Place := components (push dest member.path)

def nodeOf (member : Member) : FileNode :=
  match member.header.entryType with
  | .directory => .directory
  | .symlink => .symlink member.header.linkName
  | .regular => .file member.data

/-- A member on top of what is there: directories are made where they are missing. -/
def unpackOne (dest : Path) (tree : Files Component) (member : Member) : Files Component :=
  match member.header.entryType with
  | .directory => tree.createDirAll (placeOf dest member)
  | _ => (withParent tree (placeOf dest member)).put (placeOf dest member) (nodeOf member)

def unpack (dest : Path) (archive : List Member) (tree : Files Component) : Files Component :=
  archive.foldl (unpackOne dest) tree

variable {dest : Path} {member : Member} {tree : Files Component}

theorem spares_unpackOne :
    Files.Spares (placeOf dest member) tree (unpackOne dest tree member) := by
  unfold unpackOne
  split
  · exact Files.spares_createDirAll _ _ tree
  · exact (spares_withParent _ tree).trans (Files.spares_put _ _ _)

theorem unpackOne_self
    (bare : tree (placeOf dest member) = none ∨ tree (placeOf dest member) = some .directory) :
    unpackOne dest tree member (placeOf dest member) = some (nodeOf member) := by
  unfold unpackOne nodeOf
  cases member.header.entryType with
  | directory => exact Files.createDirAll_self tree bare
  | symlink | regular => exact Files.put_self _ _

/-- What a member does elsewhere is to make directories. -/
theorem unpackOne_other {place : Place} (apart : place ≠ placeOf dest member)
    (bare : tree place = none ∨ tree place = some .directory) :
    unpackOne dest tree member place = none ∨
      unpackOne dest tree member place = some .directory := by
  have made : ∀ {before : Files Component} {parent : Place},
      before place = none ∨ before place = some .directory →
      before.createDirAll parent place = none ∨
        before.createDirAll parent place = some .directory := by
    intro before parent there
    rcases @Files.createDirAll_cases _ _ before parent place with directory | same
    · exact Or.inr directory
    · rw [same]
      exact there
  unfold unpackOne
  cases member.header.entryType with
  | directory => exact made bare
  | symlink | regular =>
    simp only [Files.put_other _ _ apart]
    unfold withParent
    cases parentOf (placeOf dest member) with
    | some parent => exact made bare
    | none => exact bare

theorem unpack_keeps {archive : List Member} {place : Place} {node : FileNode}
    (elsewhere : ∀ member ∈ archive, place ≠ placeOf dest member) (there : tree place = some node) :
    unpack dest archive tree place = some node := by
  induction archive generalizing tree with
  | nil => exact there
  | cons first later ih =>
    apply ih fun member listed => elsewhere member (List.mem_cons_of_mem _ listed)
    exact spares_unpackOne _ _ (elsewhere first (List.mem_cons_self ..)) there

/-- Members with a place of their own each are all there after unpacking. -/
theorem unpack_places {archive : List Member}
    (apart : archive.Pairwise fun one other => placeOf dest one ≠ placeOf dest other)
    (bare : ∀ member ∈ archive,
      tree (placeOf dest member) = none ∨ tree (placeOf dest member) = some .directory) :
    ∀ member ∈ archive, unpack dest archive tree (placeOf dest member) = some (nodeOf member) := by
  induction archive generalizing tree with
  | nil => exact fun _ impossible => nomatch impossible
  | cons first later ih =>
    obtain ⟨others, apart⟩ := List.pairwise_cons.mp apart
    have bare' : ∀ member ∈ later, unpackOne dest tree first (placeOf dest member) = none ∨
        unpackOne dest tree first (placeOf dest member) = some .directory := by
      intro member listed
      exact unpackOne_other (Ne.symm (others member listed))
        (bare member (List.mem_cons_of_mem _ listed))
    intro member listed
    cases List.mem_cons.mp listed with
    | inl same =>
      subst same
      change unpack dest later (unpackOne dest tree member) (placeOf dest member) = _
      exact unpack_keeps others (unpackOne_self (bare member (List.mem_cons_self ..)))
    | inr after => exact ih apart bare' member after

end Unpacking

theorem decodes_within {fs : Filesystem} {libs : Libraries} {contents : UInt32 → Bytes}
    (decodes : DecodesTo libs fs contents) : DecodesWithin libs fs contents where
  whole block record bytes found decoded := by
    have all := decodes.whole block record found
    rw [Except.ok.inj (decoded.symm.trans all)]
  partly block record want bytes found short decoded := by
    rcases decodes.partly block record want found short with none_ | ⟨front, partly, isPrefix, _⟩
    · cases decoded.symm.trans none_
    · cases decoded.symm.trans partly
      exact isPrefix

theorem exists_of_forall₂ {α β : Type} {R : α → β → Prop} {xs : List α} {ys : List β}
    (related : List.Forall₂ R xs ys) {x : α} (member : x ∈ xs) : ∃ y ∈ ys, R x y := by
  induction related with
  | nil => cases member
  | cons first _ ih =>
    cases List.mem_cons.mp member with
    | inl same => exact ⟨_, List.mem_cons_self .., same ▸ first⟩
    | inr after =>
      obtain ⟨y, there, second⟩ := ih after
      exact ⟨y, List.mem_cons_of_mem _ there, second⟩

section Lines

theorem flatMap_lines (line : UInt8) (rows : List Bytes) :
    rows.flatMap (· ++ [line]) = [line].intercalate (rows ++ [[]]) := by
  induction rows with
  | nil => rfl
  | cons row rest ih =>
    rw [List.flatMap_cons, ih, List.cons_append, List.intercalate_cons_of_ne_nil (by simp)]

theorem mem_of_stripSlash {byte : UInt8} {path : Bytes} (member : byte ∈ stripSlash path) :
    byte ∈ path := by
  cases path with
  | nil => exact member
  | cons first rest =>
    simp only [stripSlash] at member
    split at member
    · exact List.mem_cons_of_mem _ member
    · exact member

/-- Lines without a newline of their own are read back. -/
theorem listLines_split {entries : List WalkEntry} (free : ∀ entry ∈ entries, 0x0A ∉ entry.path) :
    (Dwarfsck.listLines entries).splitOn 0x0A =
      (entries.filter (·.path ≠ [])).map (stripSlash ·.path) ++ [[]] := by
  have rows : Dwarfsck.listLines entries =
      ((entries.filter (·.path ≠ [])).map (stripSlash ·.path)).flatMap (· ++ [0x0A]) := by
    rw [Dwarfsck.listLines, List.flatMap_map]
  rw [rows, flatMap_lines, List.splitOn_intercalate _ _ (by simp)]
  intro row listed
  rcases List.mem_append.mp listed with named | last
  · obtain ⟨entry, member, rfl⟩ := List.mem_map.mp named
    exact fun inside => free entry (List.mem_of_mem_filter member) (mem_of_stripSlash inside)
  · rw [List.mem_singleton.mp last]
    exact List.not_mem_nil

end Lines

theorem placeOf_keeps {fs : Filesystem} {libs : Libraries} {entry : WalkEntry} {member : Member}
    (keeps : Keeps fs libs entry member) (some_ : entry.path ≠ []) (text : Textual entry.path)
    (dest : Path) : placeOf dest member = targetOf dest entry := by
  rw [placeOf, targetOf, resolvePath, if_neg some_, keeps.exact_name text]

/-- Over blocks that decode, a file whose chunks fit shows all of its bytes. -/
theorem fileContent_of_intact {fs : Filesystem} {contents : UInt32 → Bytes} {inode : UInt32}
    (intact : Intact fs contents inode) :
    fileContent fs contents inode = fileBytes fs contents inode := by
  obtain ⟨start, stop, range, fits⟩ := intact.chunks
  simp only [fileContent, fileBytes, range, contentOf]
  apply List.flatMap_congr
  intro chunk listed
  by_cases hole : fs.isHoleChunk chunk = true
  · rw [chunkBytes, chunkBytes, if_pos hole, if_pos (show (roomy fs).isHoleChunk chunk = true
      from hole)]
    rfl
  · have inside := (fits chunk listed (by simpa using hole)).2
    rw [chunkBytes, chunkBytes, if_neg hole, if_neg (show ¬ (roomy fs).isHoleChunk chunk = true
      from hole), field, field, padded, List.drop_append_of_le_length (by omega),
      List.take_append_of_le_length (by rw [List.length_drop]; omega)]

/-- What an extraction leaves for an entry is what its member unpacks to. -/
theorem extracted_node {fs : Filesystem} {libs : Libraries} {contents : UInt32 → Bytes} {dest : Path}
    {selected : List WalkEntry} (derived : Derived fs)
    (selection : Selection fs contents dest selected) {after : Files Component} {entry : WalkEntry}
    (extracted : Extracted fs contents dest after entry) (listed : entry ∈ selected)
    (archived : Archived entry)
    (links : entry.kind = .symlink → ∀ target, fs.readLink entry.inode = .ok target →
      Lib.Utf8.wellFormed target = true)
    {member : Member} (stores : Stores fs libs contents entry member) :
    after (targetOf dest entry) = some (nodeOf member) := by
  apply extracted
  rcases archived.2 with kind | kind | kind
  · rw [wanted, nodeOf, kind, stores.headed.directory kind]
  · obtain ⟨target, read, exact_⟩ := stores.keeps.link kind
    simp only [wanted, nodeOf, kind, stores.headed.symlink kind, read, exact_ (links kind _ read)]
  · obtain ⟨intact, _⟩ := selection.files entry listed kind
    have whole := fileContent_of_intact intact
    have data := stores.content kind (whole ▸ (intact.size derived).1)
    rw [wanted, nodeOf, kind, stores.headed.regular kind, data, whole]

section Main

variable {libs : Libraries} {build : Build} {image : Format.Image} {fs : Filesystem}
  {contents : UInt32 → Bytes} (opened : Filesystem.openImage libs build image = .ok fs)
  (decodes : DecodesTo libs fs contents) {depth : Nat} {entries : List WalkEntry}
  (walked : fs.walk depth = some (.ok entries)) (distinct : (entries.map (·.path)).Nodup)
  (plain : ∀ entry ∈ entries, Plain entry.path)
  (legible : ∀ entry ∈ entries, Legible fs contents entry)

include opened walked distinct plain legible

/-- Without patterns every extraction extracts the whole walk. -/
theorem extracted_whole {dest : Path} {options : ExtractOptions}
    (all : options.includePatterns = [])
    {before after : Files Component} (bare : Bare (components dest) before)
    {writes : List (Result Nat)} {outcome : Result Tally}
    (ran : Extracts (onDisk fs contents) fs dest options (.ok entries) before writes outcome
      after) :
    ∀ entry ∈ entries, Extracted fs contents dest after entry := by
  have takes : ∀ entry, options.takes entry = .ok true := by
    intro entry
    rw [ExtractOptions.takes, if_pos all]
  have chosen : options.select entries = .ok entries := by
    rw [select_eq, if_pos (by simp [takes]), taken, List.filter_eq_self.mpr (by simp [takes])]
  have selection := selection_of_walk opened walked distinct plain (.refl _) legible dest
  exact (extracted_of_extracts (derived_of_open opened) selection chosen bare ran).2

include decodes

/-- The members of an archive carry the names of the walk in its order and what `stat` says of
each; wherever a member is unpacked, every extraction of the tree has left the same; and the lines
of a listing, read back, are the names of the whole walk. -/
theorem listings_agree
    (textual : ∀ entry ∈ entries, Archived entry → Textual entry.path)
    (links : ∀ entry ∈ entries, entry.kind = .symlink → ∀ target,
      fs.readLink entry.inode = .ok target → Lib.Utf8.wellFormed target = true)
    {crate : TarCrate} (rooms : ∀ header data, 0 < crate.room header data)
    {archive : List Member} (wrote : fs.writeTar libs crate depth = some (.ok archive))
    {dest : Path} {before : Files Component}
    (empty : ∀ place, components dest <+: place → before place = none ∨
      place = components dest ∧ before place = some .directory) :
    List.Forall₂ (fun entry member => member.path = stripSlash entry.path ∧ Headed fs entry member)
      (entries.filter Archived) archive ∧
    (∀ entry ∈ entries, Archived entry → ∃ node,
      unpack dest archive before (targetOf dest entry) = some node ∧
      ∀ options : ExtractOptions, options.includePatterns = [] → ∀ writes outcome after,
        Extracts (onDisk fs contents) fs dest options (.ok entries) before writes outcome after →
        after (targetOf dest entry) = some node) ∧
    ((∀ entry ∈ entries, 0x0A ∉ entry.path) → ∃ out,
      Dwarfsck.runList fs depth = some (out, .done) ∧
      out.stdout.splitOn 0x0A =
        (entries.filter (·.path ≠ [])).map (stripSlash ·.path) ++ [[]]) := by
  have derived := derived_of_open opened
  have stored := writeTar_stores derived (decodes_within decodes) rooms walked wrote
  have selection := selection_of_walk opened walked distinct plain (.refl _) legible dest
  have bare : Bare (components dest) before := fun place inside =>
    (empty place inside).imp_right And.right
  have member_entry : ∀ entry ∈ entries.filter Archived, entry ∈ entries ∧ Archived entry := by
    intro entry listed
    rw [List.mem_filter, decide_eq_true_eq] at listed
    exact listed
  have each := (List.forall₂_and_left _ _).mpr ⟨member_entry, stored⟩
  have places : archive.map (placeOf dest) = (entries.filter Archived).map (targetOf dest) := by
    rw [← List.forall₂_eq_eq_eq, List.forall₂_map_left_iff, List.forall₂_map_right_iff]
    apply List.Forall₂.flip
    apply each.imp
    intro entry member related
    obtain ⟨⟨listed, archived⟩, stores⟩ := related
    exact placeOf_keeps stores.keeps archived.1 (textual entry listed archived) dest
  refine ⟨?_, ?_, ?_⟩
  · apply each.imp
    intro entry member related
    obtain ⟨⟨listed, archived⟩, stores⟩ := related
    exact ⟨stores.keeps.exact_name (textual entry listed archived), stores.headed⟩
  · have apart : archive.Pairwise fun one other => placeOf dest one ≠ placeOf dest other := by
      apply List.pairwise_map.mp
      rw [places]
      exact List.pairwise_map.mpr (selection.distinct.filter _)
    have vacant : ∀ member ∈ archive, before (placeOf dest member) = none ∨
        before (placeOf dest member) = some .directory := by
      intro member listed
      have here : placeOf dest member ∈ (entries.filter Archived).map (targetOf dest) :=
        places ▸ List.mem_map_of_mem listed
      obtain ⟨entry, filtered, same⟩ := List.mem_map.mp here
      rw [← same]
      exact bare _ (selection.inside entry (member_entry entry filtered).1)
    intro entry listed archived
    obtain ⟨member, there, stores⟩ := exists_of_forall₂ stored
      (List.mem_filter.mpr ⟨listed, decide_eq_true archived⟩)
    have place := placeOf_keeps stores.keeps archived.1 (textual entry listed archived) dest
    refine ⟨nodeOf member, place ▸ unpack_places apart vacant member there, ?_⟩
    intro options all writes outcome after ran
    have extracted := extracted_whole opened walked distinct plain legible all bare ran
    exact extracted_node derived selection (extracted entry listed) listed archived
      (links entry listed) stores
  · intro free
    refine ⟨{ Dwarfsck.Output.nothing with stdout := Dwarfsck.listLines entries }, ?_,
      listLines_split free⟩
    rw [Dwarfsck.runList, walked]

end Main

section Inputs

theorem namedWalk_cases {entry : WalkEntry} (member : entry ∈ namedWalk) :
    entry = ⟨[], 0, .directory⟩ ∨ entry = ⟨[47, 97, 98, 99, 100], 1, .regular⟩ := by
  simpa [namedWalk] using member

/-- The archive of the image: its one file. -/
def namedArchive : List Member :=
  [⟨⟨0o644, 0, 0, 0, .regular, 5, []⟩, [97, 98, 99, 100], helloBlock⟩]

theorem listings_agree_named :
    ∃ node, unpack [100] namedArchive (fun _ => none)
        (targetOf [100] ⟨[47, 97, 98, 99, 100], 1, .regular⟩) = some node ∧
      ∀ options : ExtractOptions, options.includePatterns = [] → ∀ writes outcome after,
        Extracts (onDisk named fun _ => helloBlock) named [100] options (.ok namedWalk)
          (fun _ => none) writes outcome after →
        after (targetOf [100] ⟨[47, 97, 98, 99, 100], 1, .regular⟩) = some node := by
  have wrote :
      named.writeTar namedLibraries threeAtATime 1 = some (.ok namedArchive) := by
    decide +kernel
  have textual : ∀ entry ∈ namedWalk, Archived entry → Textual entry.path := by
    intro entry member archived
    rcases namedWalk_cases member with rfl | rfl
    · exact absurd rfl archived.1
    · exact ⟨by decide, by decide +kernel⟩
  have links : ∀ entry ∈ namedWalk, entry.kind = .symlink → ∀ target,
      named.readLink entry.inode = .ok target → Lib.Utf8.wellFormed target = true := by
    intro entry member kind
    rcases namedWalk_cases member with rfl | rfl <;> cases kind
  have agree := listings_agree open_named named_decodes walk_namedImage (by decide)
    namedWalk_plain namedWalk_legible textual links (fun _ _ => Nat.succ_pos 2) wrote
    (show ∀ place, components [100] <+: place → (none : Option FileNode) = none ∨
      place = components [100] ∧ (none : Option FileNode) = some .directory from
      fun _ _ => Or.inl rfl)
  exact agree.2.1 ⟨[47, 97, 98, 99, 100], 1, .regular⟩ (by decide) (by decide)

end Inputs

end Rdwarfs.Guarantees.ArchivedTree
