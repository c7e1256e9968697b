import Mathlib.Data.List.Forall2
import Rdwarfs.Guarantees.AccessorSafety
import Rdwarfs.Guarantees.FileChecksums
import Rdwarfs.Guarantees.TarFidelity
import Rdwarfs.Lib.Json
import Rdwarfs.Source.Dwarfsck

/-!
# JSON output

What `dwarfsck` writes as JSON decodes to the values it is about: a string to itself, the summary
to the figures of the filesystem, every line of an export to the record of its entry. The texts are
put together by the rules of the library, `Writes` saying of one that it is read as a value and
holds no control character; `Listed` is an object that lacks its closing brace.
-/
namespace Rdwarfs.Guarantees.JsonOutput

open Lib.Machine Lib.Json Source Source.Fs Source.Dwarfsck OpenedFilesystem

section Visible

/-- No control characters, and so no line breaks. -/
def Visible (text : String) : Prop := ∀ c ∈ text.toList, 0x20 ≤ c.toNat

instance (text : String) : Decidable (Visible text) :=
  List.decidableBAll (fun c : Char => 0x20 ≤ c.toNat) text.toList

theorem Visible.append {front back : String} (before : Visible front) (after : Visible back) :
    Visible (front ++ back) := by
  intro c member
  rw [String.toList_append, List.mem_append] at member
  exact member.elim (before c) (after c)

theorem visible_intercalate {between : String} (comma : Visible between) {parts : List String}
    (each : ∀ part ∈ parts, Visible part) : Visible (between.intercalate parts) := by
  induction parts with
  | nil => simp [Visible]
  | cons part rest ih =>
    rw [List.forall_mem_cons] at each
    by_cases last : rest = []
    · rw [last, String.intercalate_singleton]
      exact each.1
    · rw [String.intercalate_cons_of_ne_nil last]
      exact (each.1.append comma).append (ih each.2)

end Visible

section Strings

/-- A spelling of one character. -/
structure Spelled (text : String) (c : Char) : Prop where
  reads : ∀ rest, character (text.toList ++ rest) = some (c, rest)
  opens : ∃ first later, text.toList = first :: later ∧ first ≠ '"'
  visible : Visible text

theorem spelled_pair {text : String} {c letter : Char} (spell : text.toList = ['\\', letter])
    (reads : ∀ rest, escaped (letter :: rest) = some (c, rest)) (visible : Visible text) :
    Spelled text c where
  reads rest := by
    rw [spell]
    exact reads rest
  opens := ⟨'\\', _, spell, by decide⟩
  visible := visible

/-- A control character is spelled by its number. -/
theorem spelled_hex {c : Char} (low : c.toNat < 0x20) : Spelled ("\\u" ++ paddedHex 4 c.toNat) c where
  reads rest := by
    have digits : ∀ n < 0x20, hex4 (paddedHex 4 n).toList = some (n, []) := by decide
    have read := hex4_append (digits c.toNat low) rest
    have front : "\\u".toList = ['\\', 'u'] := rfl
    rw [String.toList_append, List.append_assoc, front, List.cons_append, List.cons_append,
      List.nil_append, character_escaped, escaped, read]
    simp only [Option.bind_eq_bind, Option.bind_some]
    rw [if_neg (by omega), if_neg (by omega), Char.ofNat_toNat]
    rfl
  opens := ⟨'\\', _, by rw [String.toList_append]; rfl, by decide⟩
  visible := by
    have digits : ∀ n < 0x20, Visible (paddedHex 4 n) := by decide
    exact Visible.append (by decide) (digits c.toNat low)

theorem spelled_escape (c : Char) : Spelled (escape c) c := by
  unfold escape
  split
  · exact spelled_pair rfl (fun _ => rfl) (by decide)
  · exact spelled_pair rfl (fun _ => rfl) (by decide)
  · exact spelled_pair rfl (fun _ => rfl) (by decide)
  · exact spelled_pair rfl (fun _ => rfl) (by decide)
  · exact spelled_pair rfl (fun _ => rfl) (by decide)
  · next quote backslash _ _ _ =>
    split
    · next low => exact spelled_hex low
    · next high =>
      have plain : Plain c := ⟨Nat.le_of_not_lt high, quote, backslash⟩
      have self : c.toString.toList = [c] := by simp
      exact {
        reads := fun rest => by rw [self]; exact character_plain plain rest
        opens := ⟨c, [], self, quote⟩
        visible := by rw [Visible, self]; simpa using plain.1 }

theorem spells_escape (s : String) : Spells (fun c => (escape c).toList) s :=
  fun c _ => ⟨(spelled_escape c).reads, (spelled_escape c).opens⟩

theorem jsonString_toList (s : String) :
    (jsonString s).toList = quoted (fun c => (escape c).toList) s := by
  have body (chars : List Char) (out : String) :
      (chars.foldl (fun out c => out ++ escape c) out).toList =
        out.toList ++ chars.flatMap fun c => (escape c).toList := by
    induction chars generalizing out with
    | nil => simp
    | cons c rest ih =>
      rw [List.foldl_cons, ih, String.toList_append, List.flatMap_cons, List.append_assoc]
  rw [jsonString, String.toList_append, body]
  rfl

end Strings

section Values

def number (n : Nat) : Value := .number n 0

/-- A text of one line that is read as a value. -/
structure Writes (text : String) (v : Value) : Prop where
  reads : Reads text.toList v
  visible : Visible text

theorem writes_string (s : String) : Writes (jsonString s) (.string s) where
  reads := by
    rw [jsonString_toList]
    exact reads_string (spells_escape s)
  visible := by
    rw [Visible, jsonString_toList, quoted]
    intro c member
    simp only [List.mem_cons, List.mem_append, List.mem_flatMap, List.not_mem_nil, or_false] at member
    rcases member with rfl | ⟨d, _, here⟩ | rfl
    · decide
    · exact (spelled_escape d).visible c here
    · decide

theorem writes_number (n : Nat) : Writes (toString n) (number n) where
  reads := by
    rw [show (toString n).toList = Nat.toDigits 10 n by simp]
    exact reads_number n
  visible := by
    intro c member
    rw [show (toString n).toList = Nat.toDigits 10 n by simp] at member
    have digit := Nat.isDigit_of_mem_toDigits (by decide) (by decide) member
    have low := (Char.isDigit_iff_toNat.mp digit).1
    exact Nat.le_trans (by decide) low

/-- A name that needs no escapes and may stand between quotes as it is. -/
def PlainName (name : String) : Prop := ∀ c ∈ name.toList, Plain c

instance (name : String) : Decidable (PlainName name) := List.decidableBAll Plain name.toList

theorem toList_plain (name : String) : s!"\"{name}\"".toList = quoted (fun c => [c]) name := by
  simp [quoted, toString]

theorem writes_plain {name : String} (plain : PlainName name) :
    Writes s!"\"{name}\"" (.string name) where
  reads := by
    rw [toList_plain]
    exact reads_string (spells_plain plain)
  visible :=
    (Visible.append (by decide) fun c member => (plain c member).1).append (by decide)

theorem writes_array {parts : List String} {values : List Value}
    (each : List.Forall₂ Writes parts values) :
    Writes ("[" ++ ",".intercalate parts ++ "]") (.array values) := by
  have both := (List.forall₂_and_left _ _).mp (each.imp fun _ _ writes => ⟨writes.visible, writes.reads⟩)
  refine ⟨?_, ((by decide : Visible "[").append (visible_intercalate (by decide) both.1)).append
    (by decide)⟩
  have reads := reads_array (List.forall₂_map_left_iff.mpr both.2)
  simpa [joined] using reads

end Values

section Objects

/-- The text of a member, whatever its name is made of. -/
def WritesMember (text : String) (listed : String × Value) : Prop :=
  ∃ value, Writes value listed.2 ∧ text = member listed.1 value

theorem writes_member (name : String) {value : String} {v : Value} (writes : Writes value v) :
    WritesMember (member name value) (name, v) := ⟨_, writes, rfl⟩

theorem member_number (name : String) (n : Nat) :
    WritesMember (member name (toString n)) (name, number n) := writes_member name (writes_number n)

theorem member_u32 (name : String) (n : UInt32) :
    WritesMember (member name (toString n)) (name, number n.toNat) := member_number name n.toNat

theorem member_u64 (name : String) (n : UInt64) :
    WritesMember (member name (toString n)) (name, number n.toNat) := member_number name n.toNat

theorem member_string (name s : String) :
    WritesMember (member name (jsonString s)) (name, .string s) :=
  writes_member name (writes_string s)

def PlainNames (names : List String) : Prop := ∀ name ∈ names, PlainName name

instance (names : List String) : Decidable (PlainNames names) := List.decidableBAll PlainName names

theorem PlainNames.append {front back : List String} (before : PlainNames front)
    (after : PlainNames back) : PlainNames (front ++ back) :=
  List.forall_mem_append.mpr ⟨before, after⟩

theorem plain_if (set : Bool) {name : String} (plain : PlainNames [name]) :
    PlainNames (if set then [name] else []) := by
  cases set
  · simp [PlainNames]
  · exact plain

theorem reads_member {text : String} {listed : String × Value} (writes : WritesMember text listed)
    (plain : PlainName listed.1) : ReadsMember text.toList listed ∧ Visible text := by
  obtain ⟨value, writes, rfl⟩ := writes
  constructor
  · refine ⟨fun c => [c], value.toList, spells_plain plain, writes.reads, ?_⟩
    simp [member, quoted, toString]
  · have name : Visible listed.1 := fun c here => (plain c here).1
    exact (((by decide : Visible "\"").append name).append (by decide)).append writes.visible

/-- An object up to its closing brace. -/
def Listed (text : String) (listed : List (String × Value)) : Prop :=
  ∃ parts, parts ≠ [] ∧ List.Forall₂ WritesMember parts listed ∧
    text = "\x7b" ++ ",".intercalate parts

theorem listed_first {part : String} {listed : String × Value} (writes : WritesMember part listed) :
    Listed ("\x7b" ++ part) [listed] :=
  ⟨[part], by simp, .cons writes .nil, by rw [String.intercalate_singleton]⟩

theorem Listed.next {text part : String} {before : List (String × Value)} {listed : String × Value}
    (front : Listed text before) (writes : WritesMember part listed) :
    Listed (text ++ "," ++ part) (before ++ [listed]) := by
  obtain ⟨parts, some_, each, rfl⟩ := front
  refine ⟨parts ++ [part], by simp, List.rel_append each (.cons writes .nil), ?_⟩
  rw [String.intercalate_append_of_ne_nil some_ (by simp), String.intercalate_singleton]
  simp only [String.append_assoc]

/-- A member that may be missing, and the one behind it. -/
theorem Listed.nextOptional {α : Type} [ToString α] {text part : String}
    {before : List (String × Value)} {listed : String × Value} (front : Listed text before)
    (name : String) (found : Option α) (value : α → Nat)
    (digits : ∀ a, toString a = toString (value a)) (writes : WritesMember part listed) :
    Listed (text ++ "," ++ optionalMember name (found.map toString) ++ part)
      (before ++ (found.map fun a => (name, number (value a))).toList ++ [listed]) := by
  cases found with
  | none => simpa [optionalMember] using front.next writes
  | some a =>
    have both := (front.next (member_number name (value a))).next writes
    simpa [optionalMember, String.append_assoc, digits a] using both

theorem Listed.close {text : String} {listed : List (String × Value)} (front : Listed text listed)
    (plain : PlainNames (listed.map Prod.fst)) : Writes (text ++ "\x7d") (.object listed) := by
  obtain ⟨parts, some_, each, rfl⟩ := front
  have both : List.Forall₂ (fun part listed => Visible part ∧ ReadsMember part.toList listed)
      parts listed := by
    clear some_
    induction each with
    | nil => exact .nil
    | cons writes _ ih =>
      rw [List.map_cons, PlainNames, List.forall_mem_cons] at plain
      exact .cons (reads_member writes plain.1).symm (ih plain.2)
  have split := (List.forall₂_and_left _ _).mp both
  refine ⟨?_, ((by decide : Visible "\x7b").append
    (visible_intercalate (by decide) split.1)).append (by decide)⟩
  have reads := reads_object (List.forall₂_map_left_iff.mpr split.2)
  simpa [joined] using reads

end Objects

section Summary

variable (fs : Filesystem)

/-- What the summary of a filesystem should decode to. -/
def summary : List (String × Value) :=
  [("block_size", number fs.blockSize.toNat), ("inode_count", number fs.inodeCount),
    ("total_fs_size", number fs.totalFsSize.toNat)] ++
  (fs.totalAllocatedFsSize.map fun size => ("total_allocated_fs_size", number size.toNat)).toList ++
  [("time_resolution_sec", number (fs.options.timeResolutionSec.getD 1).toNat),
    ("features", .array (fs.features.map .string)),
    ("categories", .array (fs.categoryNames.map .string))] ++
  (fs.preferredPathSeparator.map fun c => ("preferred_path_separator", number c.toNat)).toList ++
  [("dir_offset", number fs.offsets.dirOffset), ("symlink_offset", number fs.offsets.symlinkOffset),
    ("file_offset", number fs.offsets.fileOffset),
    ("shared_file_offset", number fs.offsets.sharedFileOffset),
    ("device_offset", number fs.offsets.deviceOffset),
    ("special_offset", number fs.offsets.specialOffset),
    ("timestamp_base", number fs.timestampBase.toNat),
    ("options", .array ((optionNames fs.options).map .string))]

def summaryNames : List String :=
  ["block_size", "inode_count", "total_fs_size", "total_allocated_fs_size", "time_resolution_sec",
    "features", "categories", "preferred_path_separator", "dir_offset", "symlink_offset",
    "file_offset", "shared_file_offset", "device_offset", "special_offset", "timestamp_base",
    "options"]

theorem summary_names : ((summary fs).map Prod.fst).Sublist summaryNames := by
  unfold summary
  cases fs.totalAllocatedFsSize <;> cases fs.preferredPathSeparator <;>
    exact List.isSublist_iff_sublist.mp rfl

theorem writes_nameList (names : List String) :
    Writes (nameList names) (.array (names.map .string)) := by
  refine writes_array ?_
  rw [List.forall₂_map_left_iff, List.forall₂_map_right_iff]
  exact List.forall₂_same.mpr fun name _ => writes_string name

/-- A comma stands before every option but the first. -/
theorem optionList_eq (names : List String) :
    optionList names = "[" ++ ",".intercalate (names.map fun name => s!"\"{name}\"") ++ "]" := by
  have loop (rest parts : List String) :
      (rest.zipIdx parts.length).foldl
          (fun out opt => (if 0 < opt.2 then out ++ "," else out) ++ s!"\"{opt.1}\"")
          ("[" ++ ",".intercalate parts) =
        "[" ++ ",".intercalate (parts ++ rest.map fun name => s!"\"{name}\"") := by
    induction rest generalizing parts with
    | nil => simp
    | cons name rest ih =>
      have step : (if 0 < parts.length then "[" ++ ",".intercalate parts ++ ","
          else "[" ++ ",".intercalate parts) ++ s!"\"{name}\"" =
          "[" ++ ",".intercalate (parts ++ [s!"\"{name}\""]) := by
        by_cases empty : parts = []
        · rw [empty]
          rfl
        · rw [if_pos (List.length_pos_iff.mpr empty),
            String.intercalate_append_of_ne_nil empty (by simp), String.intercalate_singleton]
          simp only [String.append_assoc]
      have onward := ih (parts ++ [s!"\"{name}\""])
      rw [List.length_append, List.length_singleton] at onward
      rw [List.zipIdx_cons, List.foldl_cons, step, onward, List.map_cons, List.append_assoc,
        List.singleton_append]
  rw [optionList, ← List.nil_append (names.map _), ← loop names []]
  rfl

theorem writes_optionList (opts : Source.Metadata.FsOptions) :
    Writes (optionList (optionNames opts)) (.array ((optionNames opts).map .string)) := by
  have plain : PlainNames (optionNames opts) :=
    (((((plain_if _ (by decide)).append (plain_if _ (by decide))).append
      (plain_if _ (by decide))).append (plain_if _ (by decide))).append
      (plain_if _ (by decide))).append (plain_if _ (by decide))
  rw [optionList_eq]
  refine writes_array ?_
  rw [List.forall₂_map_left_iff, List.forall₂_map_right_iff]
  exact List.forall₂_same.mpr fun name member => writes_plain (plain name member)

/-- What is written of the summary before its closing brace. -/
theorem listed_printJson : ∃ text, printJson fs = text ++ "\x7d\n" ∧ Listed text (summary fs) := by
  refine ⟨_, rfl, ?_⟩
  have start := ((listed_first (member_u32 "block_size" fs.blockSize)).next
    (member_number "inode_count" fs.inodeCount)).next
    (member_u64 "total_fs_size" fs.totalFsSize)
  have lists := ((start.nextOptional "total_allocated_fs_size"
    fs.totalAllocatedFsSize UInt64.toNat (fun _ => rfl)
    (member_u32 "time_resolution_sec" (fs.options.timeResolutionSec.getD 1))).next
    (writes_member "features" (writes_nameList fs.features))).next
    (writes_member "categories" (writes_nameList fs.categoryNames))
  have offsets := (((((lists.nextOptional "preferred_path_separator"
    fs.preferredPathSeparator UInt32.toNat (fun _ => rfl)
    (member_number "dir_offset" fs.offsets.dirOffset)).next
    (member_number "symlink_offset" fs.offsets.symlinkOffset)).next
    (member_number "file_offset" fs.offsets.fileOffset)).next
    (member_number "shared_file_offset" fs.offsets.sharedFileOffset)).next
    (member_number "device_offset" fs.offsets.deviceOffset)).next
    (member_number "special_offset" fs.offsets.specialOffset)
  have all := (offsets.next (member_u64 "timestamp_base" fs.timestampBase)).next
    (writes_member "options" (writes_optionList fs.options))
  unfold summary
  simp only [List.append_assoc, List.cons_append, List.nil_append] at all ⊢
  exact all

/-- The summary is one line, read as an object that has every name once. -/
theorem printJson_writes : ∃ line, printJson fs = line ++ "\n" ∧
    Writes line (.object (summary fs)) ∧ ((summary fs).map Prod.fst).Nodup := by
  obtain ⟨text, shape, listed⟩ := listed_printJson fs
  have names := summary_names fs
  refine ⟨text ++ "\x7d", ?_, listed.close fun name member => ?_, names.nodup (by decide)⟩
  · rw [shape, String.append_assoc]
    rfl
  · have plain : PlainNames summaryNames := by decide
    exact plain name (names.subset member)

end Summary

section Records

variable (fs : Filesystem)

/-- What the line of an entry should decode to. -/
def record (entry : WalkEntry) (stat : Stat) : List (String × Value) :=
  [("inode", number stat.inode.toNat), ("path", .string (recordPath entry)),
    ("kind", .string (kindName stat.kind)), ("mode", number stat.mode.toNat),
    ("uid", number stat.uid.toNat), ("gid", number stat.gid.toNat), ("mtime", number stat.mtime),
    ("atime", number stat.atime), ("ctime", number stat.ctime), ("size", number stat.size),
    ("nlink", number stat.nlink)] ++
  if stat.kind = .symlink then
    match fs.readLink stat.inode with
    | .ok target => [("target", .string (Lib.Utf8.lossyText target))]
    | .error _ => []
  else []

def recordNames : List String :=
  ["inode", "path", "kind", "mode", "uid", "gid", "mtime", "atime", "ctime", "size", "nlink",
    "target"]

theorem record_names (entry : WalkEntry) (stat : Stat) :
    ((record fs entry stat).map Prod.fst).Sublist recordNames := by
  unfold record
  split
  · split <;> exact List.isSublist_iff_sublist.mp rfl
  · exact List.isSublist_iff_sublist.mp rfl

theorem listed_recordHead (entry : WalkEntry) (stat : Stat) :
    Listed (recordHead entry stat)
      [("inode", number stat.inode.toNat), ("path", .string (recordPath entry)),
        ("kind", .string (kindName stat.kind)), ("mode", number stat.mode.toNat),
        ("uid", number stat.uid.toNat), ("gid", number stat.gid.toNat), ("mtime", number stat.mtime),
        ("atime", number stat.atime), ("ctime", number stat.ctime), ("size", number stat.size),
        ("nlink", number stat.nlink)] := by
  have kind : Writes s!"\"{kindName stat.kind}\"" (.string (kindName stat.kind)) :=
    writes_plain (by cases stat.kind <;> decide)
  have named := ((listed_first (member_u32 "inode" stat.inode)).next
    (member_string "path" (recordPath entry))).next (writes_member "kind" kind)
  have owned := ((named.next (member_u32 "mode" stat.mode)).next (member_u32 "uid" stat.uid)).next
    (member_u32 "gid" stat.gid)
  have timed := ((owned.next (member_number "mtime" stat.mtime)).next
    (member_number "atime" stat.atime)).next (member_number "ctime" stat.ctime)
  exact (timed.next (member_number "size" stat.size)).next (member_number "nlink" stat.nlink)

/-- Once the target is known, the record is a line. -/
theorem record_writes (entry : WalkEntry) {stat : Stat} {target : String}
    (known : recordTarget fs stat = .ok target) :
    Writes (recordHead entry stat ++ target ++ "\x7d") (.object (record fs entry stat)) := by
  have head := listed_recordHead entry stat
  have names := record_names fs entry stat
  have plain : PlainNames recordNames := by decide
  refine Listed.close ?_ fun name member => plain name (names.subset member)
  unfold recordTarget at known
  unfold record
  split at known
  · next link =>
    rw [if_pos link]
    split at known
    · next target found =>
      cases known
      rw [found, ← String.append_assoc]
      exact head.next (member_string "target" _)
    · next found =>
      cases known
      rw [found, String.append_empty, List.append_nil]
      exact head
    · cases known
  · next other =>
    cases known
    rw [if_neg other, String.append_empty, List.append_nil]
    exact head

end Records

section Lines

/-- One line that is an object with these members, every name once. -/
structure OneObject (line : String) (members : List (String × Value)) : Prop where
  lineFeed : '\n' ∉ line.toList
  carriageReturn : '\r' ∉ line.toList
  decodes : decode line = some (.object members)
  names : (members.map Prod.fst).Nodup

theorem no_breaks {text : String} (visible : Visible text) :
    '\n' ∉ text.toList ∧ '\r' ∉ text.toList :=
  ⟨fun member => absurd (visible _ member) (by decide),
    fun member => absurd (visible _ member) (by decide)⟩

theorem oneObject_of_writes {line : String} {members : List (String × Value)}
    (writes : Writes line (.object members)) (names : (members.map Prod.fst).Nodup) :
    OneObject line members :=
  have ⟨lineFeed, carriageReturn⟩ := no_breaks writes.visible
  ⟨lineFeed, carriageReturn, decode_of_reads writes.reads, names⟩

/-- The line of an entry says what `stat` and `read_link` know of it. -/
def LineOf (fs : Filesystem) (line : String) (entry : WalkEntry) : Prop :=
  ∃ stat, fs.stat entry.inode = .ok stat ∧ OneObject line (record fs entry stat)

/-- A line for every entry, up to one that cannot be read. -/
theorem exportEntries_lines {fs : Filesystem} (derived : Derived fs) (entries : List WalkEntry)
    (out : String) :
    ∃ lines ending,
      exportEntries fs entries out = (out ++ String.join (lines.map (· ++ "\n")), ending) ∧
      List.Forall₂ (LineOf fs) lines (entries.take lines.length) ∧
      (ending = .done ∧ lines.length = entries.length ∨ ∃ reason, ending = .unread (.err reason)) := by
  induction entries generalizing out with
  | nil => exact ⟨[], .done, by simp [exportEntries], .nil, Or.inl ⟨rfl, rfl⟩⟩
  | cons entry rest ih =>
    rw [exportEntries]
    cases known : fs.stat entry.inode with
    | error failure =>
      cases failure with
      | err reason => exact ⟨[], _, by simp, .nil, Or.inr ⟨reason, rfl⟩⟩
      | panic => exact absurd known (AccessorSafety.settles_stat derived entry.inode).1
    | ok stat =>
      cases found : recordTarget fs stat with
      | error failure =>
        unfold recordTarget at found
        split at found
        · split at found
          · cases found
          · cases found
          · next panics => exact absurd panics (AccessorSafety.settles_readLink derived stat.inode).1
        · cases found
      | ok target =>
        obtain ⟨lines, ending, ran, each, ends⟩ :=
          ih (out ++ recordHead entry stat ++ target ++ "\x7d\n")
        have line := oneObject_of_writes (record_writes fs entry found)
          ((record_names fs entry stat).nodup (by decide))
        refine ⟨(recordHead entry stat ++ target ++ "\x7d") :: lines, ending, ?_,
          .cons ⟨stat, known, line⟩ each, ?_⟩
        · have brace : "\x7d\n" = "\x7d" ++ "\n" := rfl
          simp only [found]
          rw [ran, List.map_cons, String.join_cons, brace]
          simp only [String.append_assoc]
        · exact ends.imp_left fun ⟨done, all⟩ => ⟨done, congrArg (· + 1) all⟩

/-- Strings, the summary and the export. -/
theorem json_output :
    (∀ s : String, ('\n' ∉ (jsonString s).toList ∧ '\r' ∉ (jsonString s).toList) ∧
      decode (jsonString s) = some (.string s)) ∧
    (∀ fs : Filesystem, ∃ line, printJson fs = line ++ "\n" ∧ OneObject line (summary fs)) ∧
    ∀ (image : Format.Image) (tables : Tables) (fs : Filesystem),
      Filesystem.ofTables image tables = .ok fs →
      ∀ (depth : Nat) (entries : List WalkEntry), fs.walk depth = some (.ok entries) →
        ∃ lines ending,
          exportMetadata fs depth = some (String.join (lines.map (· ++ "\n")), ending) ∧
          List.Forall₂ (LineOf fs) lines (entries.take lines.length) ∧
          (ending = .done ∧ lines.length = entries.length ∨
            ∃ reason, ending = .unread (.err reason)) := by
  refine ⟨fun s => ?_, fun fs => ?_, fun image tables fs made depth entries walked => ?_⟩
  · have writes := writes_string s
    exact ⟨no_breaks writes.visible, decode_of_reads writes.reads⟩
  · obtain ⟨line, shape, writes, names⟩ := printJson_writes fs
    exact ⟨line, shape, oneObject_of_writes writes names⟩
  · obtain ⟨lines, ending, ran, each, ends⟩ :=
      exportEntries_lines (derived_of_ofTables made) entries ""
    rw [String.empty_append] at ran
    exact ⟨lines, ending, by rw [exportMetadata, walked]; exact congrArg some ran, each, ends⟩

open TarFidelity FileChecksums in
/-- A link, an empty file and one with a block. -/
theorem json_output_three : ∃ lines, lines.length = 4 ∧
    exportMetadata (three [97, 98, 99] [98]) 3 = some (String.join (lines.map (· ++ "\n")), .done) ∧
      List.Forall₂ (LineOf (three [97, 98, 99] [98])) lines threeEntries := by
  obtain ⟨lines, ending, ran, each, ends⟩ :=
    json_output.2.2 _ _ _ (three_made [97, 98, 99] [98]) 3 _ three_walked
  have done : (exportMetadata (three [97, 98, 99] [98]) 3).map Prod.snd = some .done := by
    decide
  rw [ran] at done
  cases done
  rcases ends with ⟨_, all⟩ | ⟨reason, absurd_⟩
  · rw [all, List.take_length] at each
    exact ⟨lines, all, ran, each⟩
  · cases absurd_

end Lines

end Rdwarfs.Guarantees.JsonOutput
