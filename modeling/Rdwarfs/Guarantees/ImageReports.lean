import Rdwarfs.Guarantees.OpenedFilesystem
import Rdwarfs.Guarantees.VerifiedImages
import Rdwarfs.Source.DwarfsckReport

/-!
# The figures of a report

`dwarfsck` adds up payload lengths by type with plain additions. On an opened image none leaves
its word, each total is the sum over the sections of its type, and prefix, headers and payloads
together are the image. The rows of the sections lie end to end.
-/
namespace Rdwarfs.Guarantees.ImageReports

open Lib.Machine Source Source.Format Source.Codecs Source.Dwarfsck SectionTiling VerifiedImages
open CodecOutcomes

def payload (record : SectionRecord) : Nat := record.header.payloadLen.toNat

def payloads (records : List SectionRecord) : Nat := (records.map payload).sum

def ofType (kind : SectionType) (records : List SectionRecord) : List SectionRecord :=
  records.filter (·.header.sectionType = kind)

def sumOf (kind : SectionType) (records : List SectionRecord) : Nat :=
  payloads (ofType kind records)

/-- The types with a total of their own. -/
def reported : List SectionType := [.block, .metadataV2, .metadataV2Schema, .history]

def totalOf (sizes : Sizes) : SectionType → Nat
  | .block => sizes.block
  | .metadataV2 => sizes.metadata
  | .metadataV2Schema => sizes.schema
  | .history => sizes.history
  | .sectionIndex | .unknown _ => 0

/-- The totals over the sections seen so far. -/
structure Accounts (records : List SectionRecord) (sizes : Sizes) : Prop where
  blockCount : sizes.blockCount = (ofType .block records).length
  known : ∀ kind ∈ reported, totalOf sizes kind = sumOf kind records
  distinct : (sizes.unknown.map Prod.fst).Nodup
  unknown : ∀ value total, (value, total) ∈ sizes.unknown ↔
    ofType (.unknown value) records ≠ [] ∧ total = sumOf (.unknown value) records
  whole : (reported.map (totalOf sizes)).sum + (sizes.unknown.map Prod.snd).sum +
    sumOf .sectionIndex records = payloads records

section Sums

variable {kind : SectionType} {records : List SectionRecord} {record : SectionRecord}

theorem payloads_append (front back : List SectionRecord) :
    payloads (front ++ back) = payloads front + payloads back := by
  rw [payloads, List.map_append, List.sum_append, payloads, payloads]

theorem payloads_single (record : SectionRecord) : payloads [record] = payload record := by
  rw [payloads, List.map_singleton, List.sum_singleton]

theorem ofType_same (same : record.header.sectionType = kind) :
    ofType kind (records ++ [record]) = ofType kind records ++ [record] := by
  rw [ofType, List.filter_append, List.filter_cons_of_pos (by simp [same]), List.filter_nil, ofType]

theorem ofType_other (other : record.header.sectionType ≠ kind) :
    ofType kind (records ++ [record]) = ofType kind records := by
  rw [ofType, List.filter_append, List.filter_cons_of_neg (by simp [other]), List.filter_nil,
    List.append_nil, ofType]

theorem sumOf_same (same : record.header.sectionType = kind) :
    sumOf kind (records ++ [record]) = sumOf kind records + payload record := by
  rw [sumOf, ofType_same same, payloads_append, payloads_single, sumOf]

theorem sumOf_other (other : record.header.sectionType ≠ kind) :
    sumOf kind (records ++ [record]) = sumOf kind records := by
  rw [sumOf, ofType_other other, sumOf]

end Sums

section Unknown

variable {value : UInt16} {len : Nat} {rows : List (UInt16 × Nat)}

/-- A type that was met has its total raised, another one a row of its own at the end. -/
theorem addUnknown_spec (distinct : (rows.map Prod.fst).Nodup)
    (room : (rows.map Prod.snd).sum + len < wordLimit) :
    ∃ next, (∀ build, addUnknown build value len rows = .ok next) ∧ (next.map Prod.fst).Nodup ∧
      (next.map Prod.snd).sum = (rows.map Prod.snd).sum + len ∧
      (∀ v, v ∈ next.map Prod.fst ↔ v = value ∨ v ∈ rows.map Prod.fst) ∧
      ∀ v total, (v, total) ∈ next ↔ (v ≠ value ∧ (v, total) ∈ rows) ∨
        (v = value ∧ ((∃ before, (value, before) ∈ rows ∧ total = before + len) ∨
          (value ∉ rows.map Prod.fst ∧ total = len))) := by
  induction rows with
  | nil =>
    refine ⟨[(value, len)], fun _ => rfl, by simp, by simp, by simp, ?_⟩
    intro v total
    simp
  | cons row rest ih =>
    obtain ⟨v, before⟩ := row
    rw [List.map_cons, List.nodup_cons] at distinct
    rw [List.map_cons, List.sum_cons] at room
    by_cases here : v = value
    · subst here
      refine ⟨(v, before + len) :: rest, ?_, ?_, ?_, ?_, ?_⟩
      · intro build
        rw [addUnknown, if_pos rfl, Arith.add_of_lt _ (by omega), ok_bind]
        rfl
      · rw [List.map_cons, List.nodup_cons]
        exact distinct
      · simp only [List.map_cons, List.sum_cons]
        omega
      · intro w
        simp
      · intro w total
        have absent : ∀ other, (v, other) ∉ rest := fun other member =>
          distinct.1 (List.mem_map.mpr ⟨_, member, rfl⟩)
        by_cases same : w = v
        · subst same
          simp [absent]
        · simp [same]
    · obtain ⟨next, added, unique, sum, keys, rows_⟩ := ih distinct.2 (by omega)
      refine ⟨(v, before) :: next, ?_, ?_, ?_, ?_, ?_⟩
      · intro build
        rw [addUnknown, if_neg here, added, ok_bind]
        rfl
      · rw [List.map_cons, List.nodup_cons, keys]
        exact ⟨fun either => either.elim here distinct.1, unique⟩
      · simp only [List.map_cons, List.sum_cons]
        omega
      · intro w
        rw [List.map_cons, List.mem_cons, keys, List.map_cons, List.mem_cons]
        tauto
      · intro w total
        rw [List.mem_cons, rows_, List.mem_cons, List.map_cons, List.mem_cons]
        by_cases same : w = value
        · subst same
          have apart : w ≠ v := Ne.symm here
          simp [apart]
        · simp [same]

end Unknown

section Run

variable {records : List SectionRecord} {record : SectionRecord} {sizes next : Sizes}

theorem accounts_new : Accounts [] .new where
  blockCount := rfl
  known := by decide
  distinct := List.nodup_nil
  unknown := by
    intro value total
    simp [Sizes.new, ofType]
  whole := rfl

theorem reported_sum (sizes : Sizes) : (reported.map (totalOf sizes)).sum =
    sizes.block + sizes.metadata + sizes.schema + sizes.history := by
  simp only [reported, totalOf, List.map_cons, List.map_nil, List.sum_cons, List.sum_nil]
  omega

/-- A section of a known type raises the total of its type and no other. -/
theorem accounts_known (accounts : Accounts records sizes)
    (known : record.header.sectionType ∈ reported)
    (count : next.blockCount = (ofType .block (records ++ [record])).length)
    (raised : ∀ kind ∈ reported, totalOf next kind =
      totalOf sizes kind + if kind = record.header.sectionType then payload record else 0)
    (kept : next.unknown = sizes.unknown) : Accounts (records ++ [record]) next := by
  have notUnknown : ∀ value, record.header.sectionType ≠ .unknown value := by
    intro value same
    rw [same] at known
    simp [reported] at known
  have notIndex : record.header.sectionType ≠ .sectionIndex := by
    intro same
    rw [same] at known
    simp [reported] at known
  have all : (reported.map (totalOf next)).sum =
      (reported.map (totalOf sizes)).sum + payload record := by
    have each := fun kind member => raised kind member
    simp only [reported, List.mem_cons, List.not_mem_nil, or_false, forall_eq_or_imp,
      forall_eq] at each
    obtain ⟨block, metadata, schema, history⟩ := each
    simp only [reported, List.map_cons, List.map_nil, List.sum_cons, List.sum_nil, block, metadata,
      schema, history]
    simp only [reported, List.mem_cons, List.not_mem_nil, or_false] at known
    rcases known with same | same | same | same
    all_goals
      simp only [same, reduceCtorEq, if_true, if_false]
      omega
  have whole := accounts.whole
  refine ⟨count, ?_, kept ▸ accounts.distinct, ?_, ?_⟩
  · intro kind member
    rw [raised kind member, accounts.known kind member]
    by_cases same : kind = record.header.sectionType
    · rw [if_pos same, sumOf_same same.symm]
    · rw [if_neg same, sumOf_other (Ne.symm same), Nat.add_zero]
  · intro value total
    rw [kept, ofType_other (notUnknown value), sumOf_other (notUnknown value)]
    exact accounts.unknown value total
  · rw [all, kept, sumOf_other notIndex, payloads_append, payloads_single]
    omega

theorem accounts_unknown {value : UInt16} (accounts : Accounts records sizes)
    (kind : record.header.sectionType = .unknown value)
    (room : payloads (records ++ [record]) < wordLimit) :
    ∃ rows, (∀ build, addUnknown build value (payload record) sizes.unknown = .ok rows) ∧
      Accounts (records ++ [record]) { sizes with unknown := rows } := by
  have whole := accounts.whole
  rw [payloads_append, payloads_single] at room
  obtain ⟨rows, added, distinct, sum, keys, mem⟩ := @addUnknown_spec value (payload record)
    sizes.unknown accounts.distinct (by omega)
  have known : ∀ other, other ≠ .unknown value → record.header.sectionType ≠ other := by
    intro other apart
    rw [kind]
    exact Ne.symm apart
  refine ⟨rows, added, ?_, ?_, distinct, ?_, ?_⟩
  · rw [ofType_other (known _ (by simp)), ← accounts.blockCount]
  · intro other member
    rw [sumOf_other, ← accounts.known other member]
    · rfl
    · apply known
      intro same
      subst same
      simp [reported] at member
  · intro v total
    rw [mem]
    by_cases same : v = value
    · subst same
      rw [ofType_same kind, sumOf_same kind]
      have some_ : ofType (.unknown v) records ++ [record] ≠ [] := by simp
      simp only [ne_eq, not_true, false_and, false_or, true_and, some_, not_false_eq_true]
      constructor
      · intro either
        rcases either with ⟨before, member, rfl⟩ | ⟨absent, rfl⟩
        · rw [((accounts.unknown v before).mp member).2]
        · have none_ : ofType (.unknown v) records = [] := by
            by_contra found
            exact absent (List.mem_map.mpr ⟨_, (accounts.unknown v _).mpr ⟨found, rfl⟩, rfl⟩)
          rw [sumOf, none_]
          exact (Nat.zero_add _).symm
      · intro total_
        by_cases met : ofType (.unknown v) records = []
        · refine Or.inr ⟨fun member => ?_, ?_⟩
          · obtain ⟨row, found, name⟩ := List.mem_map.mp member
            obtain ⟨w, before⟩ := row
            cases name
            exact ((accounts.unknown _ before).mp found).1 met
          · rw [total_, sumOf, met]
            exact Nat.zero_add _
        · exact Or.inl ⟨_, (accounts.unknown v _).mpr ⟨met, rfl⟩, total_⟩
    · have apart : record.header.sectionType ≠ .unknown v := by
        rw [kind]
        simp [Ne.symm same]
      rw [ofType_other apart, sumOf_other apart, ← accounts.unknown v total]
      simp [same]
  · rw [sumOf_other (known _ (by simp)), payloads_append, payloads_single]
    change _ + (rows.map Prod.snd).sum + _ = _
    rw [sum, ← whole]
    change (reported.map (totalOf sizes)).sum + _ + _ = _
    omega

theorem accounts_count (accounts : Accounts records sizes)
    (room : payloads (records ++ [record]) < wordLimit)
    (few : (records ++ [record]).length < wordLimit) :
    ∃ next, (∀ build, Sizes.count build sizes record = .ok next) ∧
      Accounts (records ++ [record]) next := by
  have whole := accounts.whole
  have sums := reported_sum sizes
  have roomy := room
  rw [payloads_append, payloads_single] at room
  have size : payload record = record.header.payloadLen.toNat := rfl
  unfold Sizes.count
  cases kind : record.header.sectionType with
  | block =>
    have count : sizes.blockCount + 1 < wordLimit := by
      have part : (ofType .block records).length ≤ records.length := List.length_filter_le ..
      have counted := accounts.blockCount
      rw [List.length_append, List.length_singleton] at few
      omega
    have sum : sizes.block + record.header.payloadLen.toNat < wordLimit := by omega
    refine ⟨_, fun build => by
      simp only [Arith.add_of_lt (.machine build) count, Arith.add_of_lt (.machine build) sum,
        ok_bind]
      rfl, ?_⟩
    apply accounts_known accounts (by simp [kind, reported])
    · rw [ofType_same kind, List.length_append, List.length_singleton, ← accounts.blockCount]
    · simp [reported, totalOf, kind, size]
    · rfl
  | metadataV2 =>
    have sum : sizes.metadata + record.header.payloadLen.toNat < wordLimit := by omega
    refine ⟨_, fun build => by
      simp only [Arith.add_of_lt (.machine build) sum, ok_bind]
      rfl, ?_⟩
    apply accounts_known accounts (by simp [kind, reported])
    · rw [ofType_other (by simp [kind]), ← accounts.blockCount]
    · simp [reported, totalOf, kind, size]
    · rfl
  | metadataV2Schema =>
    have sum : sizes.schema + record.header.payloadLen.toNat < wordLimit := by omega
    refine ⟨_, fun build => by
      simp only [Arith.add_of_lt (.machine build) sum, ok_bind]
      rfl, ?_⟩
    apply accounts_known accounts (by simp [kind, reported])
    · rw [ofType_other (by simp [kind]), ← accounts.blockCount]
    · simp [reported, totalOf, kind, size]
    · rfl
  | history =>
    have sum : sizes.history + record.header.payloadLen.toNat < wordLimit := by omega
    refine ⟨_, fun build => by
      simp only [Arith.add_of_lt (.machine build) sum, ok_bind]
      rfl, ?_⟩
    apply accounts_known accounts (by simp [kind, reported])
    · rw [ofType_other (by simp [kind]), ← accounts.blockCount]
    · simp [reported, totalOf, kind, size]
    · rfl
  | sectionIndex =>
    refine ⟨sizes, fun _ => rfl, ?_⟩
    have apart : ∀ other, other ≠ .sectionIndex → record.header.sectionType ≠ other := by
      intro other different
      rw [kind]
      exact Ne.symm different
    refine ⟨?_, ?_, accounts.distinct, ?_, ?_⟩
    · rw [ofType_other (apart _ (by simp)), accounts.blockCount]
    · intro other member
      rw [accounts.known other member, sumOf_other]
      apply apart
      intro same
      subst same
      simp [reported] at member
    · intro value total
      rw [ofType_other (apart _ (by simp)), sumOf_other (apart _ (by simp))]
      exact accounts.unknown value total
    · rw [sumOf_same kind, payloads_append, payloads_single]
      omega
  | unknown value =>
    obtain ⟨rows, added, next⟩ := @accounts_unknown _ _ _ value accounts kind roomy
    refine ⟨_, ?_, next⟩
    intro build
    rw [size] at added
    simp only [added build, ok_bind]
    rfl

/-- Every total fits, in a build of either kind. -/
theorem accounts_foldlM {later : List SectionRecord} (accounts : Accounts records sizes)
    (room : payloads (records ++ later) < wordLimit)
    (few : (records ++ later).length < wordLimit) :
    ∃ final, (∀ build, later.foldlM (Sizes.count build) sizes = .ok final) ∧
      Accounts (records ++ later) final := by
  induction later generalizing records sizes with
  | nil =>
    rw [List.append_nil]
    exact ⟨sizes, fun _ => rfl, accounts⟩
  | cons record later ih =>
    rw [← List.singleton_append, ← List.append_assoc] at room few ⊢
    have front := payloads_append (records ++ [record]) later
    obtain ⟨next, counted, accounts'⟩ := @accounts_count records record sizes accounts (by omega)
      (by rw [List.length_append] at few; omega)
    obtain ⟨final, folded, accounts''⟩ := ih accounts' room few
    refine ⟨final, ?_, accounts''⟩
    intro build
    rw [List.singleton_append, List.foldlM_cons, counted, ok_bind, folded]

end Run

section Rows

/-- Sections that lie end to end, each with its end and its length. -/
def EndToEnd : Nat → List (SectionRecord × Nat × Nat) → Nat → Prop
  | start, [], stop => start = stop
  | start, row :: later, stop => row.1.fileOffset = start ∧ row.2.1 = start + row.2.2 ∧
      EndToEnd row.2.1 later stop

/-- Where a section ends, and its length, without bounds. -/
def ending (record : SectionRecord) : Nat × Nat :=
  (record.fileOffset + headerLen + payload record, headerLen + payload record)

variable {bytes : Bytes} {start : Nat} {records : List SectionRecord}

theorem chain_total (chain : Chain bytes start records) (inside : start ≤ bytes.length) :
    start + headerLen * records.length + payloads records = bytes.length := by
  induction records generalizing start with
  | nil => exact Nat.le_antisymm inside chain
  | cons record later ih =>
    obtain ⟨-, -, read, chain⟩ := chain
    have whole := ih chain (sectionAt_eq_ok read)
    rw [← List.singleton_append, payloads_append, payloads_single, List.singleton_append,
      List.length_cons, Nat.mul_succ]
    rw [← whole, payload]
    omega

theorem chain_rows (fits : bytes.length < sliceLimit) (chain : Chain bytes start records)
    (inside : start ≤ bytes.length) :
    ∃ rows, (∀ build, collect (sectionEnd build) records = .ok rows) ∧
      EndToEnd start (records.zip rows) bytes.length := by
  induction records generalizing start with
  | nil => exact ⟨[], fun _ => rfl, Nat.le_antisymm inside chain⟩
  | cons record later ih =>
    obtain ⟨-, rfl, read, chain⟩ := chain
    have within := sectionAt_eq_ok read
    obtain ⟨rows, ended, rest⟩ := ih chain within
    have word : bytes.length < wordLimit := by
      rw [sliceLimit_eq] at fits
      rw [wordLimit_eq]
      omega
    have row : ∀ build, sectionEnd build record = .ok (ending record) := by
      intro build
      rw [sectionEnd, Arith.add_of_lt _ (by omega), ok_bind, Arith.add_of_lt _ (by omega), ok_bind,
        Arith.add_of_lt _ (by omega)]
      rfl
    refine ⟨ending record :: rows, fun build => ?_, ?_⟩
    · rw [collect, row, ok_bind, ended]
      rfl
    · rw [← Nat.add_assoc] at rest
      exact ⟨rfl, Nat.add_assoc .., rest⟩

theorem lines_of_rows {rows : List (Nat × Nat)}
    (ended : ∀ build, collect (sectionEnd build) records = .ok rows) (i : Nat) :
    ∃ lines, ∀ build, collect (fun row : SectionRecord × Nat => sectionLine build row.2 row.1)
      (records.zipIdx i) = .ok lines := by
  induction records generalizing rows i with
  | nil => exact ⟨[], fun _ => rfl⟩
  | cons record later ih =>
    obtain ⟨row, -, rest, -, same⟩ : ∃ row, sectionEnd .checked record = .ok row ∧ ∃ rest,
        collect (sectionEnd .checked) later = .ok rest ∧ rows = row :: rest := by
      have first := ended .checked
      simp only [collect, bind_eq_ok] at first
      obtain ⟨row, read, rest, others, same⟩ := first
      cases same
      exact ⟨row, read, rest, others, rfl⟩
    subst same
    have each : ∀ build, sectionEnd build record = .ok row ∧
        collect (sectionEnd build) later = .ok rest := by
      intro build
      have first := ended build
      simp only [collect, bind_eq_ok] at first
      obtain ⟨row, read, rest, others, same⟩ := first
      cases same
      exact ⟨read, others⟩
    obtain ⟨lines, written⟩ := ih (fun build => (each build).2) (i + 1)
    have one : ∃ line, ∀ build, sectionLine build i record = .ok line :=
      ⟨_, fun build => by
        simp only [sectionLine, (each build).1, ok_bind]
        rfl⟩
    obtain ⟨line, one⟩ := one
    refine ⟨line :: lines, fun build => ?_⟩
    simp only [List.zipIdx_cons, collect, one, written, ok_bind]

end Rows

section Opened

variable {bytes : Bytes} {build : Build} {source : ImageSource}

theorem given_returns {α : Type} {run : Result α} (calm : run ≠ panicked) :
    ∃ value, given run = .ok value := by
  cases run with
  | ok value => exact ⟨some value, rfl⟩
  | error failure =>
    cases failure with
    | err reason => exact ⟨none, rfl⟩
    | panic => exact absurd rfl calm

/-- The codec of the section that a summary loads to tell its size does not panic there. -/
def Loads (libs : Libraries) (image : Image) (kind : SectionType) : Prop :=
  ∀ record build payload, image.findSection kind = some record →
    image.payloadBytes build record = .ok payload →
    libs.decode record.header.compression payload (1 <<< 30) ≠ panicked

variable (serves : source.Serves bytes) (fits : bytes.length < sliceLimit) {image : Image}
  (opened : Image.fromSource build source = .ok image)

include serves fits opened

theorem decodedLen_returns {libs : Libraries} {kind : SectionType}
    (loads : Loads libs image kind) :
    ∃ len, decodedLen libs image kind = .ok len := by
  unfold decodedLen
  cases found : image.findSection kind with
  | none => exact ⟨none, rfl⟩
  | some record =>
    obtain ⟨backed, chain⟩ := chain_of_opened serves fits opened
    have member := List.mem_of_find?_eq_some found
    have load := (@load_eq bytes build source image ⟨libs.xxh3, fun _ => []⟩ libs rfl serves fits
      opened record member build).1 (1 <<< 30)
    have calm : image.decompressSection libs record (1 <<< 30) ≠ panicked := by
      have payload := @payloadBytes_eq bytes build source serves fits image backed record
        (chain_mem chain member).2
      rw [load, payload, ok_bind]
      split
      · exact decompress_ne_panicked (loads record build _ found payload)
      · simp
    obtain ⟨decoded, returned⟩ := given_returns calm
    exact ⟨decoded.map List.length, by simp only [returned, ok_bind]; rfl⟩

/-- On an opened image a build of either kind counts the same: each total is the sum of the
payloads of its type, the rows of the sections lie end to end from the base to the end of the
image, and prefix, headers and payloads are the bytes of the image, none of them twice. -/
theorem summary_accounts :
    ∃ sizes rows,
      (∀ build', image.sections.foldlM (Sizes.count build') .new = .ok sizes) ∧
      (∀ build', collect (sectionEnd build') image.sections = .ok rows) ∧
      Accounts image.sections sizes ∧
      image.baseOffset + headerLen * image.sections.length +
        (sizes.block + sizes.metadata + sizes.schema + sizes.history) +
        (sizes.unknown.map Prod.snd).sum + sumOf .sectionIndex image.sections = bytes.length ∧
      EndToEnd image.baseOffset (image.sections.zip rows) bytes.length ∧
      ∀ libs : Libraries, Loads libs image .metadataV2 → Loads libs image .metadataV2Schema →
        ∀ detail, ∃ text, ∀ build', printSummary build' libs image detail = .ok text := by
  obtain ⟨-, chain⟩ := chain_of_opened serves fits opened
  have inside : image.baseOffset ≤ bytes.length :=
    Nat.le_trans (Nat.le_add_right ..) (opened_inside serves fits opened)
  have total := chain_total chain inside
  have word : bytes.length < wordLimit := by
    rw [sliceLimit_eq] at fits
    rw [wordLimit_eq]
    omega
  obtain ⟨sizes, counted, accounts⟩ := @accounts_foldlM [] .new image.sections accounts_new
    (by rw [List.nil_append]; omega)
    (by rw [List.nil_append]; simp only [headerLen] at total; omega)
  obtain ⟨rows, ended, tiled⟩ := chain_rows fits chain inside
  have whole := accounts.whole
  rw [reported_sum, List.nil_append] at whole
  refine ⟨sizes, rows, counted, ended, accounts, by omega, tiled, ?_⟩
  intro libs metadataLoads schemaLoads detail
  obtain ⟨metadataLen, metadata⟩ := decodedLen_returns serves fits opened metadataLoads
  obtain ⟨schemaLen, schema⟩ := decodedLen_returns serves fits opened schemaLoads
  obtain ⟨lines, written⟩ := lines_of_rows ended 0
  by_cases deep : detail ≥ 2
  · exact ⟨_, fun build' => by
      simp only [printSummary, counted, metadata, schema, if_pos deep, written, ok_bind]
      rfl⟩
  · exact ⟨_, fun build' => by
      simp only [printSummary, counted, metadata, schema, if_neg deep, ok_bind]
      rfl⟩

end Opened

section Inputs

open OpenedFilesystem

/-- No decoder of the build panics at the cap of a summary. -/
theorem named_loads (kind : SectionType) : Loads namedLibraries namedImage kind :=
  fun _ _ payload _ _ =>
    (codecsReturn_libraries _ _ _ (by decide : 1 <<< 30 < sliceLimit)).whole _ payload _ (Nat.le_refl _)

theorem summary_accounts_named :
    ∃ sizes, namedImage.sections.foldlM (Sizes.count .wrapping) .new = .ok sizes ∧
      sizes.block = 14 ∧ sizes.metadata = 49 ∧
      ∃ text, printSummary .wrapping namedLibraries namedImage 2 = .ok text := by
  obtain ⟨sizes, rows, counted, -, accounts, -, -, printed⟩ :=
    summary_accounts (ImageSource.serves_ofVec (by decide +kernel)) (by decide +kernel) build_named
  obtain ⟨text, same⟩ := printed namedLibraries (named_loads _) (named_loads _) 2
  exact ⟨sizes, counted .wrapping, accounts.known .block (by decide),
    accounts.known .metadataV2 (by decide), text, same .wrapping⟩

end Inputs

end Rdwarfs.Guarantees.ImageReports
