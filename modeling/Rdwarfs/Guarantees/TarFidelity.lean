import Rdwarfs.Guarantees.ExtractContainment
import Rdwarfs.Guarantees.FileContents
import Rdwarfs.Source.Fs.Tar

/-!
# What a tar archive keeps of the image

Names and symlink targets are byte strings in the image and strings in `write_tar`: a name
that is not UTF-8 is rendered with replacement characters, so two such names may become one.
Everything that is UTF-8 is kept as it is, and the data of a file is its content whatever
buffers the archive is filled through.
-/
namespace Rdwarfs.Guarantees.TarFidelity

open Lib.Machine Source Source.Metadata Source.Fs Source.Codecs
open OpenedFilesystem FileContents ExtractContainment

/-- An entry that gets a member: not the root, and of a kind tar knows here. -/
def Archived (entry : WalkEntry) : Prop :=
  entry.path ≠ [] ∧
    (entry.kind = .directory ∨ entry.kind = .symlink ∨ entry.kind = .regular)

instance : DecidablePred Archived := fun entry =>
  inferInstanceAs (Decidable (entry.path ≠ [] ∧ (_ ∨ _ ∨ _)))

/-- A path whose name in the archive is itself. -/
def Textual (path : Bytes) : Prop :=
  stripSlash path ≠ [] ∧ Lib.Utf8.wellFormed (stripSlash path) = true

/-- What a member has to do with the entry it was written for. -/
structure Keeps (fs : Filesystem) (libs : Libraries) (entry : WalkEntry) (member : Member) :
    Prop where
  name : member.path = tarPath entry.path
  exact_name : Textual entry.path → member.path = stripSlash entry.path
  link : entry.kind = .symlink → ∃ target, fs.readLink entry.inode = .ok target ∧
    (Lib.Utf8.wellFormed target = true → member.header.linkName = target)
  size : entry.kind = .regular → fs.fileSize entry.inode = .ok member.data.length
  data : entry.kind = .regular → ∀ bytes, fs.readFile libs entry.inode = some (.ok bytes) →
    member.data = bytes

/-- What a member's header takes from its entry. -/
structure Headed (fs : Filesystem) (entry : WalkEntry) (member : Member) : Prop where
  directory : entry.kind = .directory → member.header.entryType = .directory
  symlink : entry.kind = .symlink → member.header.entryType = .symlink
  regular : entry.kind = .regular → member.header.entryType = .regular
  stat : ∃ stat, fs.stat entry.inode = .ok stat ∧ member.header.mode = stat.mode &&& 0o7777 ∧
    member.header.uid = stat.uid ∧ member.header.gid = stat.gid ∧ member.header.mtime = stat.mtime

/-- All of it: a file whose size is that of its content has its content for data, also where
`read_file` has no room for it. -/
structure Stores (fs : Filesystem) (libs : Libraries) (contents : UInt32 → Bytes)
    (entry : WalkEntry) (member : Member) : Prop where
  keeps : Keeps fs libs entry member
  headed : Headed fs entry member
  content : entry.kind = .regular →
    fs.fileSize entry.inode = .ok (fileContent fs contents entry.inode).length →
    member.data = fileContent fs contents entry.inode

theorem appendData_eq_ok {crate : TarCrate} {archive longer : List Member} {header : TarHeader}
    {path data : Bytes}
    (added : Filesystem.appendData crate archive header path data = .ok longer) :
    longer = archive ++ [⟨header, path, data⟩] := by
  simp only [Filesystem.appendData, bind_eq_ok, pure_eq_ok, Except.ok.injEq] at added
  obtain ⟨_, -, same⟩ := added
  exact same.symm

theorem tarPath_textual {path : Bytes} (textual : Textual path) :
    tarPath path = stripSlash path := by
  unfold tarPath
  dsimp only
  rw [if_neg textual.1]
  exact (Lib.Utf8.lossy_eq_self_iff _).mpr textual.2

theorem mapIo_eq_ok {α : Type} {result : Result α} {value : α} :
    mapIo result = .ok value ↔ result = .ok value := by
  unfold mapIo
  split <;> simp

/-- The data is complete at the first empty read. -/
theorem pull_eq_ok {fs : Filesystem} {libs : Libraries} {crate : TarCrate} {header : TarHeader}
    {reader : FileReader} {taken out : Bytes} {cache after : Inner}
    (pulled : fs.pull libs crate header reader taken cache = some (.ok out, after)) :
    ∃ bytes next later,
      fs.fileReaderRead libs reader (crate.room header taken) cache =
        some (.ok (bytes, next), later) ∧
      ((bytes = [] ∧ out = taken ∧ later = after) ∨
        (bytes ≠ [] ∧
          fs.pull libs crate header next (taken ++ bytes) later = some (.ok out, after))) := by
  rw [Filesystem.pull] at pulled
  split at pulled
  · cases pulled
  · cases pulled
  · rename_i bytes next later read
    split at pulled
    · rename_i ended
      cases pulled
      exact ⟨_, _, _, read, Or.inl ⟨ended, rfl, rfl⟩⟩
    · rename_i some_
      exact ⟨_, _, _, read, Or.inr ⟨some_, pulled⟩⟩

section Data

variable {fs : Filesystem} {libs : Libraries} {contents : UInt32 → Bytes} {crate : TarCrate}
variable (derived : Derived fs) (decodes : DecodesWithin libs fs contents)

include derived decodes

/-- One call of the reader: as much of the rest as the buffer takes. -/
theorem fileReaderRead_content {reader next : FileReader} {bufLen : Nat} {cache after : Inner}
    {bytes : Bytes} (stocked : Stocked contents cache) (room : 0 < bufLen)
    (place : reader.offset + reader.remaining = (fileContent fs contents reader.inode).length)
    (read : fs.fileReaderRead libs reader bufLen cache = some (.ok (bytes, next), after)) :
    Stocked contents after ∧
      bytes = ((fileContent fs contents reader.inode).drop reader.offset).take bufLen ∧
      next = ⟨reader.inode, reader.remaining - bytes.length, reader.offset + bytes.length⟩ := by
  have word := @fileContent_lt fs contents derived reader.inode
  unfold Filesystem.fileReaderRead at read
  by_cases finished : reader.remaining = 0 ∨ bufLen = 0
  · rw [if_pos finished] at read
    cases read
    have spent : reader.remaining = 0 := by omega
    refine ⟨stocked, ?_, ?_⟩
    · rw [List.drop_eq_nil_of_le (by omega), List.take_nil]
    · simp
  · rw [if_neg finished] at read
    obtain ⟨result, later, ran, kept, shown⟩ := readAt_run derived decodes fs.tarBudget stocked
      reader.inode (by omega : reader.offset < wordLimit) (min bufLen reader.remaining)
    simp only [ran, Option.some.injEq, Prod.mk.injEq, bind_eq_ok, mapIo_eq_ok] at read
    obtain ⟨⟨found, returned, _, _, offset, added, remaining, subtracted, done⟩, rfl⟩ := read
    cases done
    obtain ⟨_, window⟩ := shown bytes returned
    obtain ⟨_, rfl⟩ := Arith.add_checked_eq_ok.mp added
    have whole : bytes = ((fileContent fs contents reader.inode).drop reader.offset).take bufLen := by
      rw [window, List.take_eq_take_iff, List.length_drop]
      omega
    unfold subWord at subtracted
    split at subtracted
    · cases subtracted
      exact ⟨kept, whole, rfl⟩
    · cases subtracted

/-- Reading to the end gives the content, by whatever buffers. -/
theorem pull_content (rooms : ∀ header data, 0 < crate.room header data) {header : TarHeader}
    {reader : FileReader} {taken out : Bytes} {cache after : Inner}
    (stocked : Stocked contents cache)
    (place : reader.offset + reader.remaining = (fileContent fs contents reader.inode).length)
    (sofar : taken = (fileContent fs contents reader.inode).take reader.offset)
    (pulled : fs.pull libs crate header reader taken cache = some (.ok out, after)) :
    Stocked contents after ∧ out = fileContent fs contents reader.inode := by
  generalize rest : reader.remaining = left
  induction left using Nat.strongRecOn generalizing reader taken cache with
  | ind left ih =>
    obtain ⟨bytes, next, later, read, step⟩ := pull_eq_ok pulled
    obtain ⟨kept, window, rfl⟩ := fileReaderRead_content derived decodes stocked
      (rooms header taken) place read
    have positive := rooms header taken
    have bound := congrArg List.length window
    rw [List.length_take, List.length_drop] at bound
    rcases step with ⟨ended, rfl, rfl⟩ | ⟨some_, onward⟩
    · refine ⟨kept, ?_⟩
      rw [ended, List.length_nil] at bound
      rw [sofar, List.take_of_length_le (by omega)]
    · have shorter := List.length_pos_iff.mpr some_
      have front : bytes <+: (fileContent fs contents reader.inode).drop reader.offset :=
        window ▸ List.take_prefix _ _
      have further : taken ++ bytes =
          (fileContent fs contents reader.inode).take (reader.offset + bytes.length) := by
        rw [sofar, List.take_add, ← List.prefix_iff_eq_take.mp front]
      exact @ih (reader.remaining - bytes.length) (by omega)
        ⟨reader.inode, reader.remaining - bytes.length, reader.offset + bytes.length⟩ _ _ kept
        (by simp only; omega) further onward rfl

/-- A regular entry's data: its content, or nothing where there is none to be read. -/
theorem pull_file (rooms : ∀ header data, 0 < crate.room header data) {header : TarHeader}
    {inode : UInt32} {size : Nat} {data : Bytes} {cache after : Inner}
    (stocked : Stocked contents cache) (sized : fs.fileSize inode = .ok size)
    (pulled : fs.pull libs crate header ⟨inode, size, 0⟩ [] cache = some (.ok data, after)) :
    Stocked contents after ∧ size = data.length ∧
      (size = (fileContent fs contents inode).length → data = fileContent fs contents inode) := by
  by_cases same : size = (fileContent fs contents inode).length
  · obtain ⟨kept, rfl⟩ := pull_content derived decodes rooms stocked
      (show (0 : Nat) + size = (fileContent fs contents inode).length by omega) rfl pulled
    exact ⟨kept, same, fun _ => rfl⟩
  · obtain rfl := (fileSize_cases derived sized).resolve_left same
    obtain ⟨bytes, next, later, read, step⟩ := pull_eq_ok pulled
    simp only [Filesystem.fileReaderRead, true_or, if_true, Option.some.injEq, Prod.mk.injEq,
      Except.ok.injEq] at read
    obtain ⟨⟨rfl, rfl⟩, rfl⟩ := read
    rcases step with ⟨_, rfl, rfl⟩ | ⟨absurd_, _⟩
    · exact ⟨stocked, rfl, fun length => absurd length same⟩
    · exact absurd rfl absurd_

/-- One entry: it is passed over, or a member that stores it is appended. -/
theorem tarEntry_stores (rooms : ∀ header data, 0 < crate.room header data) {entry : WalkEntry}
    {cache after : Inner} {archive longer : List Member} (stocked : Stocked contents cache)
    (added : fs.tarEntry libs crate entry cache archive = some (.ok longer, after)) :
    Stocked contents after ∧
      ((¬ Archived entry ∧ longer = archive) ∨
        (Archived entry ∧
          ∃ member, longer = archive ++ [member] ∧ Stores fs libs contents entry member)) := by
  unfold Filesystem.tarEntry at added
  by_cases root : entry.path = []
  · rw [if_pos root] at added
    cases added
    exact ⟨stocked, Or.inl ⟨fun archived => archived.1 root, rfl⟩⟩
  · rw [if_neg root] at added
    split at added
    · cases added
    · rename_i stat known
      dsimp only at added
      cases kind : entry.kind with
      | directory =>
        simp only [kind, Option.some.injEq, Prod.mk.injEq, bind_eq_ok] at added
        obtain ⟨⟨_, -, added⟩, rfl⟩ := added
        refine ⟨stocked, Or.inr ⟨⟨root, Or.inl kind⟩, _, appendData_eq_ok added, ?_, ?_, ?_⟩⟩
        · exact ⟨rfl, tarPath_textual, by simp [kind], by simp [kind], by simp [kind]⟩
        · exact ⟨fun _ => rfl, by simp [kind], by simp [kind], stat, known, rfl, rfl, rfl, rfl⟩
        · simp [kind]
      | symlink =>
        simp only [kind, Option.some.injEq, Prod.mk.injEq, bind_eq_ok] at added
        obtain ⟨⟨target, read, _, -, _, -, added⟩, rfl⟩ := added
        refine ⟨stocked,
          Or.inr ⟨⟨root, Or.inr (Or.inl kind)⟩, _, appendData_eq_ok added, ?_, ?_, ?_⟩⟩
        · refine ⟨rfl, tarPath_textual, fun _ => ⟨target, read, fun textual => ?_⟩,
            by simp [kind], by simp [kind]⟩
          simp only [linkName, if_pos textual]
        · exact ⟨by simp [kind], fun _ => rfl, by simp [kind], stat, known, rfl, rfl, rfl, rfl⟩
        · simp [kind]
      | regular =>
        simp only [kind] at added
        split at added
        · cases added
        · rename_i size sized
          split at added
          · cases added
          · split at added
            · cases added
            · rename_i pulled later ran
              simp only [Option.some.injEq, Prod.mk.injEq, bind_eq_ok] at added
              obtain ⟨⟨data, rfl, added⟩, rfl⟩ := added
              obtain ⟨kept, length, exact_⟩ := pull_file derived decodes rooms stocked sized ran
              refine ⟨kept,
                Or.inr ⟨⟨root, Or.inr (Or.inr kind)⟩, _, appendData_eq_ok added, ?_, ?_, ?_⟩⟩
              · refine ⟨rfl, tarPath_textual, by simp [kind], fun _ => length ▸ sized,
                  fun _ bytes read => ?_⟩
                obtain ⟨whole, rfl⟩ := readFile_content derived decodes read
                exact exact_ (Except.ok.inj (sized.symm.trans whole))
              · exact ⟨by simp [kind], by simp [kind], fun _ => rfl, stat, known, rfl, rfl, rfl, rfl⟩
              · exact fun _ whole => exact_ (Except.ok.inj (sized.symm.trans whole))
      | charDevice | blockDevice | fifo | socket | unknown =>
        simp only [kind, Option.some.injEq, Prod.mk.injEq, Except.ok.injEq] at added
        obtain ⟨rfl, rfl⟩ := added
        exact ⟨stocked, Or.inl ⟨by simp [Archived, kind], rfl⟩⟩

theorem tarEntries_stores (rooms : ∀ header data, 0 < crate.room header data)
    {entries : List WalkEntry} {cache : Inner} {archive longer : List Member}
    (stocked : Stocked contents cache)
    (added : fs.tarEntries libs crate entries cache archive = some (.ok longer)) :
    ∃ members, longer = archive ++ members ∧
      List.Forall₂ (Stores fs libs contents) (entries.filter Archived) members := by
  induction entries generalizing cache archive with
  | nil =>
    cases added
    exact ⟨[], by simp, .nil⟩
  | cons entry rest ih =>
    rw [Filesystem.tarEntries] at added
    split at added
    · cases added
    · cases added
    · rename_i here later entered
      obtain ⟨kept, step⟩ := tarEntry_stores derived decodes rooms stocked entered
      obtain ⟨members, rfl, matched⟩ := ih kept added
      rcases step with ⟨skipped, rfl⟩ | ⟨archived, member, rfl, stores⟩
      · exact ⟨members, rfl, by rwa [List.filter_cons_of_neg (by simpa using skipped)]⟩
      · refine ⟨member :: members, by simp, ?_⟩
        rw [List.filter_cons_of_pos (by simpa using archived)]
        exact .cons stores matched

/-- The members of an archive, one for every entry that gets one. -/
theorem writeTar_stores (rooms : ∀ header data, 0 < crate.room header data) {depth : Nat}
    {entries : List WalkEntry} {archive : List Member}
    (walked : fs.walk depth = some (.ok entries))
    (wrote : fs.writeTar libs crate depth = some (.ok archive)) :
    List.Forall₂ (Stores fs libs contents) (entries.filter Archived) archive := by
  unfold Filesystem.writeTar at wrote
  rw [walked] at wrote
  cases added : fs.tarEntries libs crate entries .empty [] with
  | none => simp [added] at wrote
  | some outcome =>
    cases outcome with
    | error failure => simp [added] at wrote
    | ok longer =>
      obtain ⟨members, rfl, matched⟩ :=
        tarEntries_stores derived decodes rooms stocked_empty added
      simp only [added, Option.some.injEq] at wrote
      split at wrote
      · cases wrote
        exact matched
      · cases wrote

end Data

theorem walk_of_writeTar {fs : Filesystem} {libs : Libraries} {crate : TarCrate} {depth : Nat}
    {archive : List Member} (wrote : fs.writeTar libs crate depth = some (.ok archive)) :
    ∃ entries, fs.walk depth = some (.ok entries) := by
  unfold Filesystem.writeTar at wrote
  cases walked : fs.walk depth with
  | none => simp [walked] at wrote
  | some outcome =>
    cases outcome with
    | error failure => simp [walked] at wrote
    | ok entries => exact ⟨entries, rfl⟩

/-- Paths that are text keep apart: only the slash in front is taken off. -/
theorem stripSlash_injective {fs : Filesystem} {depth : Nat} {entries : List WalkEntry}
    (walked : fs.walk depth = some (.ok entries)) {one other : WalkEntry} (first : one ∈ entries)
    (second : other ∈ entries) (text : Textual one.path) (text' : Textual other.path)
    (same : stripSlash one.path = stripSlash other.path) : one.path = other.path := by
  obtain ⟨names, _, path⟩ := walk_named walked one first
  obtain ⟨names', _, path'⟩ := walk_named walked other second
  cases names with
  | nil => exact absurd (by rw [path]; rfl) text.1
  | cons name names =>
    cases names' with
    | nil => exact absurd (by rw [path']; rfl) text'.1
    | cons name' names' =>
      rw [path, path'] at same ⊢
      simp only [pathOf_cons, stripSlash, if_true] at same
      rw [pathOf_cons, pathOf_cons, same]

/-- The archive has a member for every directory, symlink and regular file of the walk but the
root, in its order. Paths and targets that are UTF-8 are kept byte for byte, and so are the
data of every file. -/
theorem writeTar_keeps {image : Format.Image} {tables : Tables} {fs : Filesystem}
    (made : Filesystem.ofTables image tables = .ok fs) {libs : Libraries}
    {contents : UInt32 → Bytes} (decodes : DecodesWithin libs fs contents) (crate : TarCrate)
    (rooms : ∀ header data, 0 < crate.room header data) {depth : Nat} {archive : List Member}
    (wrote : fs.writeTar libs crate depth = some (.ok archive)) :
    ∃ entries, fs.walk depth = some (.ok entries) ∧
      List.Forall₂ (Keeps fs libs) (entries.filter Archived) archive ∧
      ∀ one ∈ entries, ∀ other ∈ entries, Textual one.path → Textual other.path →
        tarPath one.path = tarPath other.path → one.path = other.path := by
  obtain ⟨entries, walked⟩ := walk_of_writeTar wrote
  have stored := writeTar_stores (derived_of_ofTables made) decodes rooms walked wrote
  refine ⟨entries, walked, stored.imp fun _ _ stores => stores.keeps, ?_⟩
  intro one first other second text text' same
  rw [tarPath_textual text, tarPath_textual text'] at same
  exact stripSlash_injective walked first second text text' same

section Inputs

/-- A symlink to `target`, an empty file and the file `hello`, each with a name of one byte. -/
def threeTables (names target : Bytes) : Tables :=
  { rootTables [] 1 [0o040755, 0o120777, 0o100644, 0o100644] with
    uids := [0], gids := [0], directories := [⟨0, 1, 0⟩, ⟨0, 4, 0⟩]
    dirEntries := [⟨0, 0⟩, ⟨0, 1⟩, ⟨1, 2⟩, ⟨2, 3⟩]
    names := { data := names, offsets := [0, 1, 2, 3] }
    chunks := [⟨0, 0, 2⟩, ⟨0, 2, 3⟩], chunkTable := [0, 0, 2], totalFsSize := 5
    symlinkTable := [0]
    symlinks := { data := target, offsets := [0, UInt32.ofNat target.length] } }

def three (names target : Bytes) : Filesystem :=
  filesystem climbingImage (threeTables names target) [2, 5] ⟨0, 1, 2, 4, 4, 4, 4⟩

theorem three_made (names target : Bytes) :
    Filesystem.ofTables climbingImage (threeTables names target) = .ok (three names target) :=
  have offsets : computeOffsets (threeTables [] []).inodes (threeTables [] []).modes 0 =
      .ok ⟨0, 1, 2, 4, 4, 4, 4⟩ := by decide
  have ends : buildChunkEnds [⟨0, 0, 2⟩, ⟨0, 2, 3⟩] [0, 0, 2] none 16 [] = .ok [2, 5] := by
    decide
  ofTables_unpacked rfl rfl offsets ends

theorem three_decodes (names target : Bytes) :
    DecodesWithin libraries (three names target) fun _ => helloBlock := by
  have single : (three names target).blockRecords =
      [sectionRecord 0 0 .block 0x2027c1b241d375cb 5] := rfl
  have read : climbingImage.sectionBytes (sectionRecord 0 0 .block 0x2027c1b241d375cb 5) =
      .ok (sectionBytes 0 0 0x2027c1b241d375cb helloBlock) := by decide +kernel
  have payload : (slice (sectionBytes 0 0 0x2027c1b241d375cb helloBlock) Format.headerLen 69 :
      Result Bytes) = .ok helloBlock := by decide
  obtain ⟨wholes, parts⟩ := @BlockReads.load_of_payload libraries climbingImage _ _ _ read
    (by decide +kernel) payload
  constructor
  · intro block record bytes found decoded
    rw [BlockReads.record_of_single single found] at decoded
    cases (wholes 16).symm.trans decoded
    exact List.prefix_refl _
  · intro block record want bytes found _ decoded
    rw [BlockReads.record_of_single single found] at decoded
    cases (parts want).symm.trans decoded

/-- Takes everything and reads three bytes at a time. -/
def threeAtATime : TarCrate where
  acceptsLink _ := true
  acceptsMember _ _ _ := true
  room _ _ := 3
  acceptsData _ _ := true
  finishes _ := true

def threeMembers (paths : List Bytes) (target : Bytes) : List Member :=
  List.zipWith (fun path make => make path) paths [
    fun path => ⟨⟨0o777, 0, 0, 0, .symlink, 0, target⟩, path, []⟩,
    fun path => ⟨⟨0o644, 0, 0, 0, .regular, 0, []⟩, path, []⟩,
    fun path => ⟨⟨0o644, 0, 0, 0, .regular, 5, []⟩, path, helloBlock⟩]

theorem writeTar_keeps_three :
    ∃ entries, (three [97, 98, 99] [98]).walk 3 = some (.ok entries) ∧
      List.Forall₂ (Keeps (three [97, 98, 99] [98]) libraries) (entries.filter Archived)
        (threeMembers [[97], [98], [99]] [98]) ∧
      ∀ one ∈ entries, ∀ other ∈ entries, Textual one.path → Textual other.path →
        tarPath one.path = tarPath other.path → one.path = other.path :=
  writeTar_keeps (three_made _ _) (three_decodes _ _) threeAtATime (fun _ _ => Nat.succ_pos 2)
    (show (three [97, 98, 99] [98]).writeTar libraries threeAtATime 3 = _ by decide +kernel)

/-- Two files called `fe` and `ff`, in bytes, both become U+FFFD; no member has either name. -/
theorem names_collide :
    (three [97, 0xfe, 0xff] [98]).walk 3 = some (.ok [⟨[], 0, .directory⟩,
      ⟨[slash, 97], 1, .symlink⟩, ⟨[slash, 0xfe], 2, .regular⟩, ⟨[slash, 0xff], 3, .regular⟩]) ∧
    (three [97, 0xfe, 0xff] [98]).writeTar libraries threeAtATime 3 =
      some (.ok (threeMembers [[97], Lib.Utf8.replacement, Lib.Utf8.replacement] [98])) ∧
    ∀ member ∈ threeMembers [[97], Lib.Utf8.replacement, Lib.Utf8.replacement] [98],
      member.path ≠ stripSlash [slash, 0xfe] ∧ member.path ≠ stripSlash [slash, 0xff] := by
  refine ⟨by decide +kernel, by decide +kernel, by decide⟩

end Inputs

end Rdwarfs.Guarantees.TarFidelity
