import Rdwarfs.Guarantees.CompactDecoding
import Rdwarfs.Source.Format.History
import Rdwarfs.Source.Metadata.Schema

/-!
# The schema and the history survive their encodings

The struct types of the two sections as records of the compact grammar, and their readers as
readers of those records. A map is its lookups: the order its entries were written in, and
the order the reader keeps them in, say nothing.
-/
namespace Rdwarfs.Guarantees.ThriftRoundTrip

open Lib.Machine Lib.Compact Source Source.Metadata ThriftReader CompactDecoding
open Source.Format (HistoryEntry HistoryVersion)

section Maps

variable {α : Type}

/-- A map written with its keys once each. -/
def MapOf (writes : α → Bytes → Prop) (map : IdMap α) (bytes : Bytes) : Prop :=
  ∃ entries : IdMap α, (entries.map (·.1)).Nodup ∧ (∀ id, entries.get id = map.get id) ∧
    Keyed writes entries bytes

/-- Two maps have the same keys, and alike values under each. -/
def Alike (same : α → α → Prop) (map other : IdMap α) : Prop :=
  ∀ id, Option.Rel same (map.get id) (other.get id)

theorem get_of_alike {map other : IdMap α} (alike : Alike Eq map other) (id : Int16) :
    map.get id = other.get id := by
  have both := alike id
  generalize map.get id = here, other.get id = there at both
  cases both with
  | none => rfl
  | some same => rw [same]

theorem get_cons (entry : Int16 × α) (rest : IdMap α) (id : Int16) :
    IdMap.get (entry :: rest) id = if id = entry.1 then some entry.2 else rest.get id := by
  simp only [IdMap.get, List.find?_cons]
  by_cases same : id = entry.1
  · simp [same]
  · have ne : (entry.1 == id) = false := by simpa using Ne.symm same
    simp [same, ne]

theorem get_eq_none {map : IdMap α} {id : Int16} (absent : id ∉ map.map (·.1)) :
    map.get id = none := by
  rw [IdMap.get, Option.map_eq_none_iff, List.find?_eq_none]
  intro entry member here
  exact absent (List.mem_map.mpr ⟨entry, member, by simpa using here⟩)

/-- The loop over a map's entries: what was written lies over what was there. -/
theorem takes_readEntries {writes : α → Bytes → Prop} {same : α → α → Prop} {read : Reader α}
    (reads : ∀ value bytes, writes value bytes → ∃ got, Takes read bytes got ∧ same got value)
    {entries : IdMap α} {bytes : Bytes} (once : (entries.map (·.1)).Nodup)
    (sequence : Sequence (fun entry bytes => ∃ key value, Integer 16 entry.1.toInt key ∧
      writes entry.2 value ∧ bytes = key ++ value) entries bytes) (out : IdMap α) :
    ∃ got, Takes (Schema.readEntries read entries.length out) bytes got ∧
      ∀ id, (entries.get id = none → got.get id = out.get id) ∧
        ∀ value, entries.get id = some value → ∃ kept, got.get id = some kept ∧ same kept value := by
  induction sequence generalizing out with
  | nil => exact ⟨out, fun last => reads_pure out last, fun id => ⟨fun _ => rfl, by simp [IdMap.get]⟩⟩
  | @cons entry entries first rest head tail ih =>
    obtain ⟨key, value, integer, written, rfl⟩ := head
    obtain ⟨kept, readValue, alike⟩ := reads entry.2 value written
    rw [List.map_cons, List.nodup_cons] at once
    obtain ⟨got, readRest, gets⟩ := ih once.2 (out.insert entry.1 kept)
    refine ⟨got, fun last => ?_, fun id => ?_⟩
    · rw [List.append_assoc, List.length_cons, Schema.readEntries]
      apply (takes_readI16 integer last).bind
      rw [Int16.ofInt_toInt]
      exact (readValue last).bind (readRest last)
    · rw [get_cons]
      obtain ⟨missing, found⟩ := gets id
      by_cases here : id = entry.1
      · rw [if_pos here]
        have absent : IdMap.get entries id = none := get_eq_none (here ▸ once.1)
        refine ⟨by simp, fun value given => ⟨kept, ?_, ?_⟩⟩
        · rw [missing absent, IdMap.get_insert, if_pos here]
        · exact Option.some.inj given ▸ alike
      · rw [if_neg here]
        refine ⟨fun absent => ?_, found⟩
        rw [missing absent, IdMap.get_insert, if_neg here]

theorem takes_readIdMap {writes : α → Bytes → Prop} {same : α → α → Prop} {read : Reader α}
    (reads : ∀ value bytes, writes value bytes → ∃ got, Takes read bytes got ∧ same got value)
    (what : String) {map : IdMap α} {bytes : Bytes} (written : MapOf writes map bytes) :
    ∃ got, Takes (Schema.readIdMap what read) bytes got ∧ Alike same got map := by
  obtain ⟨entries, once, gets, head, body, header, sequence, rfl⟩ := written
  obtain ⟨got, readRest, kept⟩ := takes_readEntries reads once sequence []
  obtain ⟨types, typed, readHead⟩ := takes_readMapHeader header
  refine ⟨got, fun last => (readHead last).bind ?_, fun id => ?_⟩
  · have expected : ¬ (entries.length > 0 ∧ (types.1 ≠ .i16 ∨ types.2 ≠ .struct)) := by
      intro unexpected
      rw [typed unexpected.1] at unexpected
      simp [ttypeOf] at unexpected
    simp only [if_neg expected]
    exact readRest last
  · rw [← gets id]
    obtain ⟨missing, found⟩ := kept id
    cases given : IdMap.get entries id with
    | none =>
      rw [missing given]
      exact .none
    | some value =>
      obtain ⟨held, at_, alike⟩ := found value given
      rw [at_]
      exact .some alike

end Maps

section Schemas

/-- A text field. -/
def Text (text : String) (bytes : Bytes) : Prop := Blob (Lib.Utf8.encode text) bytes

def fieldRecord : Record Field where
  known := [1, 2]
  start := { layoutId := 0, offset := 0 }
  agree id field other :=
    (id = 1 → field.layoutId = other.layoutId) ∧ (id = 2 → field.offset = other.offset)
  writes field id kind bytes :=
    (id = 1 ∧ kind = .i16 ∧ Integer 16 field.layoutId.toInt bytes) ∨
    (id = 2 ∧ kind = .i16 ∧ Integer 16 field.offset.toInt bytes)

/-- Layouts that differ in nothing but how their maps are kept. -/
structure SameLayout (layout other : Layout) : Prop where
  size : layout.size = other.size
  bits : layout.bits = other.bits
  fields : ∀ id, layout.fields.get id = other.fields.get id
  typeName : layout.typeName = other.typeName

def layoutRecord : Record Layout where
  known := [1, 2, 3, 4]
  start := Layout.empty
  agree id layout other :=
    (id = 1 → layout.size = other.size) ∧ (id = 2 → layout.bits = other.bits) ∧
    (id = 3 → Alike Eq layout.fields other.fields) ∧ (id = 4 → layout.typeName = other.typeName)
  writes layout id kind bytes :=
    (id = 1 ∧ kind = .i32 ∧ Integer 32 layout.size.toNat bytes) ∨
    (id = 2 ∧ kind = .i16 ∧ Integer 16 layout.bits.toNat bytes) ∨
    (id = 3 ∧ kind = .map ∧ MapOf fieldRecord.Encodes layout.fields bytes) ∨
    (id = 4 ∧ kind = .binary ∧ Text layout.typeName bytes)

structure SameSchema (schema other : Schema) : Prop where
  fileVersion : schema.fileVersion = other.fileVersion
  relaxTypeChecks : schema.relaxTypeChecks = other.relaxTypeChecks
  layouts : Alike SameLayout schema.layouts other.layouts
  rootLayout : schema.rootLayout = other.rootLayout

def schemaRecord : Record Schema where
  known := [1, 2, 3, 4]
  start := { fileVersion := 0, relaxTypeChecks := false, layouts := [], rootLayout := 0 }
  agree id schema other :=
    (id = 1 → schema.relaxTypeChecks = other.relaxTypeChecks) ∧
    (id = 2 → Alike SameLayout schema.layouts other.layouts) ∧
    (id = 3 → schema.rootLayout = other.rootLayout) ∧
    (id = 4 → schema.fileVersion = other.fileVersion)
  writes schema id kind bytes :=
    (id = 1 ∧ kind = (if schema.relaxTypeChecks then .boolTrue else .boolFalse) ∧ bytes = []) ∨
    (id = 2 ∧ kind = .map ∧ MapOf layoutRecord.Encodes schema.layouts bytes) ∨
    (id = 3 ∧ kind = .i16 ∧ Integer 16 schema.rootLayout.toInt bytes) ∨
    (id = 4 ∧ kind = .i32 ∧ Integer 32 schema.fileVersion.toInt bytes)

theorem takes_readField {field : Field} {bytes : Bytes} (encodes : fieldRecord.Encodes field bytes) :
    ∃ got, Takes Schema.readField bytes got ∧ got = field := by
  have read : ∃ got, Takes Schema.readField bytes got ∧
      ∀ id ∈ fieldRecord.known, fieldRecord.agree id got field := by
    apply Follows.takes_structReader _ (by decide) encodes
    refine ⟨?_, ?_, ?_⟩
    · intro id known
      exact ⟨fun _ => rfl, fun _ => rfl⟩
    · intro value id known kind payload state written started
      rcases written with ⟨rfl, rfl, integer⟩ | ⟨rfl, rfl, integer⟩
      · refine ⟨{ state with layoutId := value.layoutId }, fun last => ?_, ?_, ?_⟩
        · exact (takes_readI16 integer last).map (by rw [Int16.ofInt_toInt])
        · simp [fieldRecord]
        · intro other _ different target agrees
          exact ⟨fun here => absurd here different, agrees.2⟩
      · refine ⟨{ state with offset := value.offset }, fun last => ?_, ?_, ?_⟩
        · exact (takes_readI16 integer last).map (by rw [Int16.ofInt_toInt])
        · simp [fieldRecord]
        · intro other _ different target agrees
          exact ⟨agrees.1, fun here => absurd here different⟩
    · intro ttype id unknown state
      simp only [fieldRecord, List.mem_cons, List.not_mem_nil, or_false, not_or] at unknown
      simp only
      split
      · exact absurd rfl unknown.1
      · exact absurd rfl unknown.2
      · rfl
  obtain ⟨got, takes, agrees⟩ := read
  have layoutId := (agrees 1 (by decide)).1 rfl
  have offset := (agrees 2 (by decide)).2 rfl
  exact ⟨got, takes, by cases got; cases field; exact congrArg₂ Metadata.Field.mk layoutId offset⟩

theorem takes_readLayout {layout : Layout} {bytes : Bytes}
    (encodes : layoutRecord.Encodes layout bytes) :
    ∃ got, Takes Schema.readLayout bytes got ∧ SameLayout got layout := by
  have read : ∃ got, Takes Schema.readLayout bytes got ∧
      ∀ id ∈ layoutRecord.known, layoutRecord.agree id got layout := by
    apply Follows.takes_structReader _ (by decide) encodes
    refine ⟨?_, ?_, ?_⟩
    · intro id known
      exact ⟨fun _ => rfl, fun _ => rfl, fun _ key => .none, fun _ => rfl⟩
    · intro value id known kind payload state written started
      rcases written with ⟨rfl, rfl, integer⟩ | ⟨rfl, rfl, integer⟩ | ⟨rfl, rfl, map⟩ |
        ⟨rfl, rfl, text⟩
      · refine ⟨{ state with size := value.size }, fun last => ?_, by simp [layoutRecord], ?_⟩
        · apply (takes_readI32 integer last).map
          rw [Int32.toInt_ofInt_of_le integer.least integer.most, if_neg (by omega), Int.toNat_natCast,
            UInt32.ofNat_toNat]
        · intro other _ different target agrees
          exact ⟨fun here => absurd here different, agrees.2⟩
      · refine ⟨{ state with bits := value.bits }, fun last => ?_, by simp [layoutRecord], ?_⟩
        · apply (takes_readI16 integer last).map
          rw [Int16.toInt_ofInt_of_le integer.least integer.most, if_neg (by omega), Int.toNat_natCast,
            UInt16.ofNat_toNat]
        · intro other _ different target agrees
          exact ⟨agrees.1, fun here => absurd here different, agrees.2.2⟩
      · obtain ⟨got, takes, alike⟩ := takes_readIdMap (fun _ _ encodes => takes_readField encodes)
          "field" map
        refine ⟨{ state with fields := got }, fun last => (takes last).map rfl, ?_, ?_⟩
        · exact ⟨by simp, by simp, fun _ => alike, by simp⟩
        · intro other _ different target agrees
          exact ⟨agrees.1, agrees.2.1, fun here => absurd here different, agrees.2.2.2⟩
      · refine ⟨{ state with typeName := value.typeName }, fun last => ?_, by simp [layoutRecord], ?_⟩
        · exact (takes_readString text last).map rfl
        · intro other _ different target agrees
          exact ⟨agrees.1, agrees.2.1, agrees.2.2.1, fun here => absurd here different⟩
    · intro ttype id unknown state
      simp only [layoutRecord, List.mem_cons, List.not_mem_nil, or_false, not_or] at unknown
      simp only
      split
      · exact absurd rfl unknown.1
      · exact absurd rfl unknown.2.1
      · exact absurd rfl unknown.2.2.1
      · exact absurd rfl unknown.2.2.2
      · rfl
  obtain ⟨got, takes, agrees⟩ := read
  refine ⟨got, takes, (agrees 1 (by decide)).1 rfl, (agrees 2 (by decide)).2.1 rfl, fun id => ?_,
    (agrees 4 (by decide)).2.2.2 rfl⟩
  exact get_of_alike ((agrees 3 (by decide)).2.2.1 rfl) id

theorem takes_readSchema {schema : Schema} {bytes : Bytes}
    (encodes : schemaRecord.Encodes schema bytes) :
    ∃ got, Takes Schema.readSchema bytes got ∧ SameSchema got schema := by
  have read : ∃ got, Takes Schema.readSchema bytes got ∧
      ∀ id ∈ schemaRecord.known, schemaRecord.agree id got schema := by
    apply Follows.takes_structReader _ (by decide) encodes
    refine ⟨?_, ?_, ?_⟩
    · intro id known
      exact ⟨fun _ => rfl, fun _ key => .none, fun _ => rfl, fun _ => rfl⟩
    · intro value id known kind payload state written started
      rcases written with ⟨rfl, rfl, rfl⟩ | ⟨rfl, rfl, map⟩ | ⟨rfl, rfl, integer⟩ |
        ⟨rfl, rfl, integer⟩
      · refine ⟨{ state with relaxTypeChecks := value.relaxTypeChecks }, fun last => ?_,
          by simp [schemaRecord], ?_⟩
        · cases value.relaxTypeChecks <;> exact reads_pure _ last
        · intro other _ different target agrees
          exact ⟨fun here => absurd here different, agrees.2⟩
      · obtain ⟨got, takes, alike⟩ := takes_readIdMap (fun _ _ encodes => takes_readLayout encodes)
          "layout" map
        refine ⟨{ state with layouts := got }, fun last => (takes last).map rfl, ?_, ?_⟩
        · exact ⟨by simp, fun _ => alike, by simp, by simp⟩
        · intro other _ different target agrees
          exact ⟨agrees.1, fun here => absurd here different, agrees.2.2⟩
      · refine ⟨{ state with rootLayout := value.rootLayout }, fun last => ?_,
          by simp [schemaRecord], ?_⟩
        · exact (takes_readI16 integer last).map (by rw [Int16.ofInt_toInt])
        · intro other _ different target agrees
          exact ⟨agrees.1, agrees.2.1, fun here => absurd here different, agrees.2.2.2⟩
      · refine ⟨{ state with fileVersion := value.fileVersion }, fun last => ?_,
          by simp [schemaRecord], ?_⟩
        · exact (takes_readI32 integer last).map (by rw [Int32.ofInt_toInt])
        · intro other _ different target agrees
          exact ⟨agrees.1, agrees.2.1, agrees.2.2.1, fun here => absurd here different⟩
    · intro ttype id unknown state
      simp only [schemaRecord, List.mem_cons, List.not_mem_nil, or_false, not_or] at unknown
      simp only
      split
      · exact absurd rfl unknown.1
      · exact absurd rfl unknown.1
      · exact absurd rfl unknown.2.1
      · exact absurd rfl unknown.2.2.1
      · exact absurd rfl unknown.2.2.2
      · rfl
  obtain ⟨got, takes, agrees⟩ := read
  exact ⟨got, takes, (agrees 4 (by decide)).2.2.2 rfl, (agrees 1 (by decide)).1 rfl,
    (agrees 2 (by decide)).2.1 rfl, (agrees 3 (by decide)).2.2.1 rfl⟩

end Schemas

section Histories

variable {α : Type}

/-- The loops that push what they read. -/
theorem takes_pushEach {writes : α → Bytes → Prop} {read : Reader α}
    (reads : ∀ value bytes, writes value bytes → Takes read bytes value) {values : List α}
    {bytes : Bytes} (sequence : Sequence writes values bytes) (out : List α) :
    Takes (Format.History.pushEach read values.length out) bytes (out ++ values) := by
  induction sequence generalizing out with
  | nil =>
    intro last
    rw [List.append_nil]
    exact reads_pure out last
  | @cons value values first rest head tail ih =>
    intro last
    rw [List.length_cons, Format.History.pushEach, List.append_cons]
    exact (reads value first head last).bind (ih (out ++ [value]) last)

def versionRecord : Record HistoryVersion where
  known := [1, 2, 3, 4, 5, 6, 7]
  start := HistoryVersion.default
  agree id version other :=
    (id = 1 → version.major = other.major) ∧ (id = 2 → version.minor = other.minor) ∧
    (id = 3 → version.patch = other.patch) ∧ (id = 4 → version.isRelease = other.isRelease) ∧
    (id = 5 → version.gitRev = other.gitRev) ∧ (id = 6 → version.gitBranch = other.gitBranch) ∧
    (id = 7 → version.gitDesc = other.gitDesc)
  writes version id kind bytes :=
    (id = 1 ∧ kind = .i16 ∧ Integer 16 version.major.toNat bytes) ∨
    (id = 2 ∧ kind = .i16 ∧ Integer 16 version.minor.toNat bytes) ∨
    (id = 3 ∧ kind = .i16 ∧ Integer 16 version.patch.toNat bytes) ∨
    (id = 4 ∧ kind = (if version.isRelease then .boolTrue else .boolFalse) ∧ bytes = []) ∨
    (id = 5 ∧ kind = .binary ∧ ∃ text, version.gitRev = some text ∧ Text text bytes) ∨
    (id = 6 ∧ kind = .binary ∧ ∃ text, version.gitBranch = some text ∧ Text text bytes) ∨
    (id = 7 ∧ kind = .binary ∧ ∃ text, version.gitDesc = some text ∧ Text text bytes)

def entryRecord : Record HistoryEntry where
  known := [1, 2, 3, 4, 5, 6]
  start := HistoryEntry.default
  agree id entry other :=
    (id = 1 → entry.version = other.version) ∧ (id = 2 → entry.systemId = other.systemId) ∧
    (id = 3 → entry.compilerId = other.compilerId) ∧ (id = 4 → entry.arguments = other.arguments) ∧
    (id = 5 → entry.timestamp = other.timestamp) ∧
    (id = 6 → entry.libraryVersions = other.libraryVersions)
  writes entry id kind bytes :=
    (id = 1 ∧ kind = .struct ∧ versionRecord.Encodes entry.version bytes) ∨
    (id = 2 ∧ kind = .binary ∧ Text entry.systemId bytes) ∨
    (id = 3 ∧ kind = .binary ∧ Text entry.compilerId bytes) ∨
    (id = 4 ∧ kind = .list ∧ ∃ arguments, entry.arguments = some arguments ∧
      Listed .binary Text arguments bytes) ∨
    (id = 5 ∧ kind = .i64 ∧ ∃ seconds, entry.timestamp = some seconds ∧
      Integer 64 seconds.toNat bytes) ∨
    (id = 6 ∧ kind = .set ∧ Listed .binary Text entry.libraryVersions bytes)

def historyRecord : Record (List HistoryEntry) where
  known := [1]
  start := []
  agree _ entries other := entries = other
  writes entries id kind bytes := id = 1 ∧ kind = .list ∧
    Listed .struct entryRecord.Encodes entries bytes

theorem word16_ofInt {version : UInt16} {bytes : Bytes} (integer : Integer 16 version.toNat bytes) :
    Format.History.word16 (Int16.ofInt version.toNat) = version := by
  rw [Format.History.word16, Int16.toInt_ofInt_of_le integer.least integer.most,
    Int.max_eq_left (by omega), Int.toNat_natCast, UInt16.ofNat_toNat]

theorem word64_toNat (seconds : UInt64) : Format.History.word64 seconds.toNat = seconds := by
  rw [Format.History.word64, Int.max_eq_left (by omega), Int.toNat_natCast, UInt64.ofNat_toNat]

theorem takes_readVersion {version : HistoryVersion} {bytes : Bytes}
    (encodes : versionRecord.Encodes version bytes) :
    Takes Format.History.readVersion bytes version := by
  have read : ∃ got, Takes Format.History.readVersion bytes got ∧
      ∀ id ∈ versionRecord.known, versionRecord.agree id got version := by
    apply Follows.takes_structReader _ (by decide) encodes
    refine ⟨?_, ?_, ?_⟩
    · intro id known
      simp [versionRecord]
    · intro value id known kind payload state written started
      rcases written with ⟨rfl, rfl, integer⟩ | ⟨rfl, rfl, integer⟩ | ⟨rfl, rfl, integer⟩ |
        ⟨rfl, rfl, rfl⟩ | ⟨rfl, rfl, text, given, written⟩ | ⟨rfl, rfl, text, given, written⟩ |
        ⟨rfl, rfl, text, given, written⟩
      · refine ⟨{ state with major := value.major }, fun last => ?_, by simp [versionRecord], ?_⟩
        · exact (takes_readI16 integer last).map (by rw [word16_ofInt integer])
        · intro other _ different target agrees
          simp_all [versionRecord]
      · refine ⟨{ state with minor := value.minor }, fun last => ?_, by simp [versionRecord], ?_⟩
        · exact (takes_readI16 integer last).map (by rw [word16_ofInt integer])
        · intro other _ different target agrees
          simp_all [versionRecord]
      · refine ⟨{ state with patch := value.patch }, fun last => ?_, by simp [versionRecord], ?_⟩
        · exact (takes_readI16 integer last).map (by rw [word16_ofInt integer])
        · intro other _ different target agrees
          simp_all [versionRecord]
      · refine ⟨{ state with isRelease := value.isRelease }, fun last => ?_,
          by simp [versionRecord], ?_⟩
        · cases value.isRelease <;> exact reads_pure _ last
        · intro other _ different target agrees
          simp_all [versionRecord]
      · refine ⟨{ state with gitRev := some text }, fun last => ?_, by simp [versionRecord, given], ?_⟩
        · exact (takes_readString written last).map rfl
        · intro other _ different target agrees
          simp_all [versionRecord]
      · refine ⟨{ state with gitBranch := some text }, fun last => ?_,
          by simp [versionRecord, given], ?_⟩
        · exact (takes_readString written last).map rfl
        · intro other _ different target agrees
          simp_all [versionRecord]
      · refine ⟨{ state with gitDesc := some text }, fun last => ?_,
          by simp [versionRecord, given], ?_⟩
        · exact (takes_readString written last).map rfl
        · intro other _ different target agrees
          simp_all [versionRecord]
    · intro ttype id unknown state
      simp only [versionRecord, List.mem_cons, List.not_mem_nil, or_false, not_or] at unknown
      simp only
      split
      · exact absurd rfl unknown.1
      · exact absurd rfl unknown.2.1
      · exact absurd rfl unknown.2.2.1
      · exact absurd rfl unknown.2.2.2.1
      · exact absurd rfl unknown.2.2.2.1
      · exact absurd rfl unknown.2.2.2.2.1
      · exact absurd rfl unknown.2.2.2.2.2.1
      · exact absurd rfl unknown.2.2.2.2.2.2
      · rfl
  obtain ⟨got, takes, agrees⟩ := read
  have major := (agrees 1 (by decide)).1 rfl
  have minor := (agrees 2 (by decide)).2.1 rfl
  have patch := (agrees 3 (by decide)).2.2.1 rfl
  have isRelease := (agrees 4 (by decide)).2.2.2.1 rfl
  have gitRev := (agrees 5 (by decide)).2.2.2.2.1 rfl
  have gitBranch := (agrees 6 (by decide)).2.2.2.2.2.1 rfl
  have gitDesc := (agrees 7 (by decide)).2.2.2.2.2.2 rfl
  have same : got = version := by
    cases got
    cases version
    simp_all
  exact same ▸ takes

theorem takes_readStringList {texts : List String} {bytes : Bytes}
    (listed : Listed .binary Text texts bytes) :
    Takes Format.History.readStringList bytes texts := by
  obtain ⟨head, body, header, sequence, rfl⟩ := listed
  intro last
  apply (takes_readListHeader header last).bind
  exact takes_pushEach (fun _ _ written => takes_readString written) sequence [] last

theorem takes_readEntry {entry : HistoryEntry} {bytes : Bytes}
    (encodes : entryRecord.Encodes entry bytes) :
    Takes Format.History.readEntry bytes entry := by
  have read : ∃ got, Takes Format.History.readEntry bytes got ∧
      ∀ id ∈ entryRecord.known, entryRecord.agree id got entry := by
    apply Follows.takes_structReader _ (by decide) encodes
    refine ⟨?_, ?_, ?_⟩
    · intro id known
      simp [entryRecord]
    · intro value id known kind payload state written started
      rcases written with ⟨rfl, rfl, encodes⟩ | ⟨rfl, rfl, written⟩ | ⟨rfl, rfl, written⟩ |
        ⟨rfl, rfl, arguments, given, listed⟩ | ⟨rfl, rfl, seconds, given, integer⟩ |
        ⟨rfl, rfl, listed⟩
      · refine ⟨{ state with version := value.version }, fun last => ?_, by simp [entryRecord], ?_⟩
        · exact (takes_readVersion encodes last).map rfl
        · intro other _ different target agrees
          simp_all [entryRecord]
      · refine ⟨{ state with systemId := value.systemId }, fun last => ?_, by simp [entryRecord], ?_⟩
        · exact (takes_readString written last).map rfl
        · intro other _ different target agrees
          simp_all [entryRecord]
      · refine ⟨{ state with compilerId := value.compilerId }, fun last => ?_,
          by simp [entryRecord], ?_⟩
        · exact (takes_readString written last).map rfl
        · intro other _ different target agrees
          simp_all [entryRecord]
      · refine ⟨{ state with arguments := some arguments }, fun last => ?_,
          by simp [entryRecord, given], ?_⟩
        · exact (takes_readStringList listed last).map rfl
        · intro other _ different target agrees
          simp_all [entryRecord]
      · refine ⟨{ state with timestamp := some seconds }, fun last => ?_,
          by simp [entryRecord, given], ?_⟩
        · exact (takes_readI64 integer last).map (by rw [word64_toNat])
        · intro other _ different target agrees
          simp_all [entryRecord]
      · obtain ⟨head, body, header, sequence, rfl⟩ := listed
        -- the set is pushed to what the entry has, which is nothing yet
        have nothing : state.libraryVersions = [] := started.2.2.2.2.2 rfl
        have pushed := takes_pushEach (fun _ _ written => takes_readString written) sequence
          state.libraryVersions
        rw [nothing, List.nil_append] at pushed
        refine ⟨{ state with libraryVersions := value.libraryVersions }, fun last => ?_,
          by simp [entryRecord], ?_⟩
        · apply (takes_readListHeader header last).bind
          rw [nothing]
          exact (pushed last).map rfl
        · intro other _ different target agrees
          simp_all [entryRecord]
    · intro ttype id unknown state
      simp only [entryRecord, List.mem_cons, List.not_mem_nil, or_false, not_or] at unknown
      simp only
      split
      · exact absurd rfl unknown.1
      · exact absurd rfl unknown.2.1
      · exact absurd rfl unknown.2.2.1
      · exact absurd rfl unknown.2.2.2.1
      · exact absurd rfl unknown.2.2.2.2.1
      · exact absurd rfl unknown.2.2.2.2.2
      · rfl
  obtain ⟨got, takes, agrees⟩ := read
  have version := (agrees 1 (by decide)).1 rfl
  have systemId := (agrees 2 (by decide)).2.1 rfl
  have compilerId := (agrees 3 (by decide)).2.2.1 rfl
  have arguments := (agrees 4 (by decide)).2.2.2.1 rfl
  have timestamp := (agrees 5 (by decide)).2.2.2.2.1 rfl
  have libraryVersions := (agrees 6 (by decide)).2.2.2.2.2 rfl
  have same : got = entry := by
    cases got
    cases entry
    simp_all
  exact same ▸ takes

theorem takes_historyEntries {entries : List HistoryEntry} {bytes : Bytes}
    (encodes : historyRecord.Encodes entries bytes) :
    Takes Format.History.readEntries bytes entries := by
  have read : ∃ got, Takes Format.History.readEntries bytes got ∧
      ∀ id ∈ historyRecord.known, historyRecord.agree id got entries := by
    apply Follows.takes_structReader _ (by decide) encodes
    refine ⟨fun id known => rfl, ?_, ?_⟩
    · intro value id known kind payload state written started
      obtain ⟨rfl, rfl, head, body, header, sequence, rfl⟩ := written
      have pushed := takes_pushEach (fun _ _ encodes => takes_readEntry encodes) sequence state
      have nothing : state = [] := started
      rw [nothing, List.nil_append] at pushed
      refine ⟨value, fun last => ?_, rfl, ?_⟩
      · apply (takes_readListHeader header last).bind
        rw [nothing]
        exact pushed last
      · intro other known different
        exact absurd (List.mem_singleton.mp known) different
    · intro ttype id unknown state
      simp only
      split
      · exact absurd (by decide) unknown
      · rfl
  obtain ⟨got, takes, agrees⟩ := read
  have same : got = entries := agrees 1 (by decide)
  exact same ▸ takes

end Histories

section Parsed

variable {α : Type}

/-- A whole payload, read from its start. -/
theorem Takes.from_start {run : Reader α} {bytes : Bytes} {value : α} (takes : Takes run bytes value)
    (fits : bytes.length < sliceLimit) :
    ∃ after, run (ThriftReader.new bytes) = .ok (value, after) := by
  have whole := takes 0 [] [] [] (by simpa using fits)
  rw [List.nil_append, List.append_nil] at whole
  exact ⟨_, whole⟩

/-- Both parsers return what any encoding of a schema or of a history is of. -/
theorem parse_encodings :
    (∀ (schema : Schema) (bytes : Bytes), bytes.length < sliceLimit →
      schemaRecord.Encodes schema bytes →
      ∃ parsed, Schema.parse bytes = .ok parsed ∧ SameSchema parsed schema) ∧
    ∀ (entries : List HistoryEntry) (payload : Bytes), payload.length < sliceLimit →
      historyRecord.Encodes entries payload → Format.History.parse payload = .ok entries := by
  constructor
  · intro schema bytes fits encodes
    obtain ⟨parsed, takes, same⟩ := takes_readSchema encodes
    obtain ⟨after, read⟩ := Takes.from_start takes fits
    refine ⟨parsed, ?_, same⟩
    simp only [Schema.parse, read, ok_bind, pure_eq_ok]
  · intro entries payload fits encodes
    obtain ⟨after, read⟩ := Takes.from_start (takes_historyEntries encodes) fits
    simp only [Format.History.parse, read, ok_bind, pure_eq_ok]

theorem varint_byte {n : Nat} (byte : UInt8) (same : n = byte.toNat) (small : byte.toNat < 128) :
    Varint n [byte] :=
  ⟨same ▸ Digits.last byte small, by simp, by omega⟩

theorem integer_byte {n : Int} (byte : UInt8) (same : zigzag n = byte.toNat)
    (small : byte.toNat < 128) : Integer 16 n [byte] ∧ Integer 32 n [byte] := by
  have bounds : -64 ≤ n ∧ n < 64 := by
    unfold zigzag at same
    split at same <;> omega
  have varint := varint_byte byte same small
  exact ⟨⟨by omega, by omega, varint⟩, ⟨by omega, by omega, varint⟩⟩

def sampleField : Field where
  layoutId := 2
  offset := -3

/-- A layout with one field at bit 3, and a list of two booleans that nobody knows. -/
def sampleLayout : Layout where
  size := 4
  bits := 0
  fields := [(7, sampleField)]
  typeName := "a"

def sampleSchema : Schema where
  fileVersion := 1
  relaxTypeChecks := true
  layouts := [(1, sampleLayout)]
  rootLayout := 1

def sampleEntry : HistoryEntry where
  version := HistoryVersion.default
  systemId := "a"
  compilerId := ""
  arguments := none
  timestamp := none
  libraryVersions := ["b"]

theorem sampleField_encodes : fieldRecord.Encodes sampleField [0x14, 4, 0x14, 5, 0] := by
  have layoutId : fieldRecord.writes sampleField 1 .i16 [4] :=
    Or.inl ⟨rfl, rfl, (integer_byte 4 (by decide) (by decide)).1⟩
  have offset : fieldRecord.writes sampleField 2 .i16 [5] :=
    Or.inr ⟨rfl, rfl, (integer_byte 5 (by decide) (by decide)).1⟩
  have stop : fieldRecord.Fields sampleField 2 [] [0] := .stop (by simp)
  have second : fieldRecord.Fields sampleField 1 [2] [0x14, 5, 0] :=
    .own (by decide) (.gap 1 (by decide) (by decide) (by decide)) offset stop
  exact .own (by decide) (.gap 1 (by decide) (by decide) (by decide)) layoutId second

/-- The unknown field 20 stands between the layout's fields, under an explicit id. -/
theorem sampleLayout_encodes : layoutRecord.Encodes sampleLayout
    [0x15, 8, 0x2B, 1, 0x4C, 14, 0x14, 4, 0x14, 5, 0, 0x09, 40, 0x21, 1, 2, 0x08, 8, 1, 97, 0] := by
  have size : layoutRecord.writes sampleLayout 1 .i32 [8] :=
    Or.inl ⟨rfl, rfl, (integer_byte 8 (by decide) (by decide)).2⟩
  have entry : ∃ key value, Integer 16 (7 : Int16).toInt key ∧
      fieldRecord.Encodes sampleField value ∧ [14, 0x14, 4, 0x14, 5, 0] = key ++ value :=
    ⟨[14], _, (integer_byte 14 (by decide) (by decide)).1, sampleField_encodes, rfl⟩
  have entries : Sequence (fun entry bytes => ∃ key value, Integer 16 entry.1.toInt key ∧
      fieldRecord.Encodes entry.2 value ∧ bytes = key ++ value) [((7 : Int16), sampleField)]
      ([14, 0x14, 4, 0x14, 5, 0] ++ []) := .cons entry .nil
  have header : MapHead .i16 .struct sampleLayout.fields.length [1, 0x4C] :=
    .typed (by decide) (by decide) (varint_byte 1 (by decide) (by decide))
  have keyed : Keyed fieldRecord.Encodes sampleLayout.fields [1, 0x4C, 14, 0x14, 4, 0x14, 5, 0] :=
    ⟨[1, 0x4C], _, header, entries, rfl⟩
  have map : layoutRecord.writes sampleLayout 3 .map [1, 0x4C, 14, 0x14, 4, 0x14, 5, 0] :=
    Or.inr (Or.inr (Or.inl ⟨rfl, rfl, sampleLayout.fields, by decide, fun _ => rfl, keyed⟩))
  have typeName : layoutRecord.writes sampleLayout 4 .binary [1, 97] :=
    Or.inr (Or.inr (Or.inr ⟨rfl, rfl, [1], varint_byte 1 (by decide) (by decide), by decide⟩))
  have two : ListHead .boolTrue 2 [0x21] := .short (by decide)
  have flags : Encoded (.value .list) [0x21, 1, 2] :=
    .list (Or.inl rfl) two
      (.elements (.flag (Or.inl rfl) 1) (.elements (.flag (Or.inl rfl) 2) .noElements))
  have omitted : ∀ id ∈ [(2 : Int16)], layoutRecord.agree id layoutRecord.start sampleLayout := by
    intro id two
    simp [layoutRecord, List.mem_singleton.mp two, Layout.empty, sampleLayout]
  have stop : layoutRecord.Fields sampleLayout 4 [2] [0] := .stop omitted
  have last : layoutRecord.Fields sampleLayout 20 [2, 4] [0x08, 8, 1, 97, 0] :=
    .own (by decide) (.explicit (integer_byte 8 (by decide) (by decide)).1) typeName stop
  have extra : layoutRecord.Fields sampleLayout 3 [2, 4]
      [0x09, 40, 0x21, 1, 2, 0x08, 8, 1, 97, 0] :=
    .extra (by decide) (.explicit (integer_byte 40 (by decide) (by decide)).1) flags last
  have third : layoutRecord.Fields sampleLayout 1 [2, 3, 4] [0x2B, 1, 0x4C, 14, 0x14, 4, 0x14, 5, 0,
      0x09, 40, 0x21, 1, 2, 0x08, 8, 1, 97, 0] :=
    .own (by decide) (.gap 2 (by decide) (by decide) (by decide)) map extra
  exact .own (by decide) (.gap 1 (by decide) (by decide) (by decide)) size third

theorem sampleSchema_encodes : schemaRecord.Encodes sampleSchema
    [0x11, 0x1B, 1, 0x4C, 2, 0x15, 8, 0x2B, 1, 0x4C, 14, 0x14, 4, 0x14, 5, 0, 0x09, 40, 0x21, 1, 2,
      0x08, 8, 1, 97, 0, 0x14, 2, 0x15, 2, 0] := by
  have relax : schemaRecord.writes sampleSchema 1 .boolTrue [] := Or.inl ⟨rfl, rfl, rfl⟩
  have entry : ∃ key value, Integer 16 (1 : Int16).toInt key ∧
      layoutRecord.Encodes sampleLayout value ∧ [2, 0x15, 8, 0x2B, 1, 0x4C, 14, 0x14, 4, 0x14, 5, 0,
        0x09, 40, 0x21, 1, 2, 0x08, 8, 1, 97, 0] = key ++ value :=
    ⟨[2], _, (integer_byte 2 (by decide) (by decide)).1, sampleLayout_encodes, rfl⟩
  have entries : Sequence (fun entry bytes => ∃ key value, Integer 16 entry.1.toInt key ∧
      layoutRecord.Encodes entry.2 value ∧ bytes = key ++ value) [((1 : Int16), sampleLayout)]
      ([2, 0x15, 8, 0x2B, 1, 0x4C, 14, 0x14, 4, 0x14, 5, 0,
        0x09, 40, 0x21, 1, 2, 0x08, 8, 1, 97, 0] ++ []) := .cons entry .nil
  have header : MapHead .i16 .struct sampleSchema.layouts.length [1, 0x4C] :=
    .typed (by decide) (by decide) (varint_byte 1 (by decide) (by decide))
  have keyed : Keyed layoutRecord.Encodes sampleSchema.layouts [1, 0x4C, 2, 0x15, 8, 0x2B, 1, 0x4C,
      14, 0x14, 4, 0x14, 5, 0, 0x09, 40, 0x21, 1, 2, 0x08, 8, 1, 97, 0] :=
    ⟨[1, 0x4C], _, header, entries, rfl⟩
  have layouts : schemaRecord.writes sampleSchema 2 .map [1, 0x4C, 2, 0x15, 8, 0x2B, 1, 0x4C,
      14, 0x14, 4, 0x14, 5, 0, 0x09, 40, 0x21, 1, 2, 0x08, 8, 1, 97, 0] :=
    Or.inr (Or.inl ⟨rfl, rfl, sampleSchema.layouts, by decide, fun _ => rfl, keyed⟩)
  have root : schemaRecord.writes sampleSchema 3 .i16 [2] :=
    Or.inr (Or.inr (Or.inl ⟨rfl, rfl, (integer_byte 2 (by decide) (by decide)).1⟩))
  have version : schemaRecord.writes sampleSchema 4 .i32 [2] :=
    Or.inr (Or.inr (Or.inr ⟨rfl, rfl, (integer_byte 2 (by decide) (by decide)).2⟩))
  have stop : schemaRecord.Fields sampleSchema 4 [] [0] := .stop (by simp)
  have fourth : schemaRecord.Fields sampleSchema 3 [4] [0x15, 2, 0] :=
    .own (by decide) (.gap 1 (by decide) (by decide) (by decide)) version stop
  have third : schemaRecord.Fields sampleSchema 2 [3, 4] [0x14, 2, 0x15, 2, 0] :=
    .own (by decide) (.gap 1 (by decide) (by decide) (by decide)) root fourth
  have second : schemaRecord.Fields sampleSchema 1 [2, 3, 4] [0x1B, 1, 0x4C, 2, 0x15, 8, 0x2B, 1,
      0x4C, 14, 0x14, 4, 0x14, 5, 0, 0x09, 40, 0x21, 1, 2, 0x08, 8, 1, 97, 0, 0x14, 2, 0x15, 2, 0] :=
    .own (by decide) (.gap 1 (by decide) (by decide) (by decide)) layouts third
  exact .own (by decide) (.gap 1 (by decide) (by decide) (by decide)) relax second

/-- One entry with a host and a library, the rest at its default. -/
theorem sampleHistory_encodes : historyRecord.Encodes [sampleEntry]
    [0x19, 0x1C, 0x28, 1, 97, 0x4A, 0x18, 1, 98, 0, 0] := by
  have host : entryRecord.writes sampleEntry 2 .binary [1, 97] :=
    Or.inr (Or.inl ⟨rfl, rfl, [1], varint_byte 1 (by decide) (by decide), by decide⟩)
  have library : Text "b" [1, 98] := ⟨[1], varint_byte 1 (by decide) (by decide), by decide⟩
  have single : ListHead .binary 1 [0x18] := .short (by decide)
  have libraries : entryRecord.writes sampleEntry 6 .set [0x18, 1, 98] :=
    Or.inr (Or.inr (Or.inr (Or.inr (Or.inr ⟨rfl, rfl, [0x18], [1, 98] ++ [], single,
      .cons library .nil, rfl⟩))))
  have omitted : ∀ id ∈ [(1 : Int16), 3, 4, 5],
      entryRecord.agree id entryRecord.start sampleEntry := by
    intro id member
    simp only [List.mem_cons, List.not_mem_nil, or_false] at member
    rcases member with rfl | rfl | rfl | rfl <;>
      simp [entryRecord, HistoryEntry.default, sampleEntry]
  have stop : entryRecord.Fields sampleEntry 6 [1, 3, 4, 5] [0] := .stop omitted
  have second : entryRecord.Fields sampleEntry 2 [1, 3, 4, 5, 6] [0x4A, 0x18, 1, 98, 0] :=
    .own (by decide) (.gap 4 (by decide) (by decide) (by decide)) libraries stop
  have entry : entryRecord.Encodes sampleEntry [0x28, 1, 97, 0x4A, 0x18, 1, 98, 0] :=
    .own (by decide) (.gap 2 (by decide) (by decide) (by decide)) host second
  have one : ListHead .struct 1 [0x1C] := .short (by decide)
  have entries : historyRecord.writes [sampleEntry] 1 .list
      [0x1C, 0x28, 1, 97, 0x4A, 0x18, 1, 98, 0] :=
    ⟨rfl, rfl, [0x1C], [0x28, 1, 97, 0x4A, 0x18, 1, 98, 0] ++ [], one, .cons entry .nil, rfl⟩
  have last : historyRecord.Fields [sampleEntry] 1 [] [0] := .stop (by simp)
  exact .own (by decide) (.gap 1 (by decide) (by decide) (by decide)) entries last

theorem parse_encodings_sample :
    (∃ parsed, Schema.parse [0x11, 0x1B, 1, 0x4C, 2, 0x15, 8, 0x2B, 1, 0x4C, 14, 0x14, 4, 0x14, 5, 0,
        0x09, 40, 0x21, 1, 2, 0x08, 8, 1, 97, 0, 0x14, 2, 0x15, 2, 0] = .ok parsed ∧
      SameSchema parsed sampleSchema) ∧
    Format.History.parse [0x19, 0x1C, 0x28, 1, 97, 0x4A, 0x18, 1, 98, 0, 0] = .ok [sampleEntry] :=
  ⟨parse_encodings.1 sampleSchema _ (by decide) sampleSchema_encodes,
    parse_encodings.2 [sampleEntry] _ (by decide) sampleHistory_encodes⟩

end Parsed

end Rdwarfs.Guarantees.ThriftRoundTrip
