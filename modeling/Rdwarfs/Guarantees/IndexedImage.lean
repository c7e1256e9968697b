import Rdwarfs.Guarantees.HeaderCodec
import Rdwarfs.Guarantees.SectionTiling

/-!
# The index lists what the walk finds

Sections written one after another, with an index of all of them and of itself behind: walking the
headers forward and reading the rows found at the tail give the same types at the same offsets.
-/
namespace Rdwarfs.Guarantees.IndexedImage

open Lib.Machine Source Source.Format HeaderCodec SectionTiling

/-- A section as a writer emits it: the header declares the payload behind it. -/
structure Section where
  header : SectionHeader
  payload : Bytes
  writable : Writable header
  sized : header.payloadLen.toNat = payload.length

namespace Section

def bytes (section_ : Section) : Bytes := section_.header.write ++ section_.payload

def width (section_ : Section) : Nat := headerLen + section_.payload.length

theorem bytes_length (section_ : Section) : section_.bytes.length = section_.width := by
  rw [bytes, width, List.length_append, write_length section_.writable.hash]

end Section

def total (sections : List Section) : Nat := (sections.map Section.width).sum

def encode (sections : List Section) : Bytes := sections.flatMap Section.bytes

theorem encode_length (sections : List Section) : (encode sections).length = total sections := by
  induction sections with
  | nil => rfl
  | cons first rest ih =>
    simp only [encode, total, List.flatMap_cons, List.length_append, List.map_cons, List.sum_cons]
      at ih ⊢
    rw [ih, first.bytes_length]

/-- Where each section lies when the first starts at `start`. -/
def records (start : Nat) : List Section → List SectionRecord
  | [] => []
  | first :: rest =>
    { fileOffset := start, header := first.header } :: records (start + first.width) rest

/-- `(u64::from(kind.as_u16()) << 48) | offset` -/
def rowOf (record : SectionRecord) : Nat :=
  (record.header.sectionType.asU16.toNat <<< 48) ||| record.fileOffset

/-- The rows for the sections `records` places, in their on-disk form. -/
def indexPayload (placed : List SectionRecord) : Bytes :=
  placed.flatMap fun record => leBytes 8 (rowOf record)

section Rows

variable {record : SectionRecord} (small : record.fileOffset < 2 ^ 48)

include small

theorem rowOf_eq :
    rowOf record = record.header.sectionType.asU16.toNat * 2 ^ 48 + record.fileOffset := by
  rw [rowOf, ← Nat.shiftLeft_add_eq_or_of_lt small, Nat.shiftLeft_eq]

theorem rowOf_lt : rowOf record < 256 ^ 8 := by
  have bound := record.header.sectionType.asU16.toNat_lt
  rw [rowOf_eq small]
  omega

theorem typeOf_rowOf : SectionIndex.typeOf (rowOf record) = record.header.sectionType.asU16 := by
  rw [SectionIndex.typeOf, rowOf_eq small, ← UInt16.toNat_inj, UInt16.toNat_ofNat']
  have bound := record.header.sectionType.asU16.toNat_lt
  omega

theorem offsetOf_rowOf : SectionIndex.offsetOf (rowOf record) = record.fileOffset := by
  rw [SectionIndex.offsetOf, rowOf_eq small]
  omega

end Rows

theorem rows_append {row : Nat} (fits : row < 256 ^ 8) (rest : Bytes) :
    SectionIndex.rows (leBytes 8 row ++ rest) = row :: SectionIndex.rows rest := by
  have value : leNat (leBytes 8 row) = row := leNat_leBytes fits
  simp only [leBytes] at value
  simp only [leBytes, List.cons_append, List.nil_append, SectionIndex.rows, value]

theorem rows_indexPayload {placed : List SectionRecord}
    (small : ∀ record ∈ placed, record.fileOffset < 2 ^ 48) :
    SectionIndex.rows (indexPayload placed) = placed.map rowOf := by
  induction placed with
  | nil => rfl
  | cons first rest ih =>
    rw [indexPayload, List.flatMap_cons, rows_append (rowOf_lt (small first List.mem_cons_self)),
      List.map_cons]
    exact congrArg _ (ih fun record member => small record (List.mem_cons_of_mem _ member))

theorem indexPayload_length (placed : List SectionRecord) :
    (indexPayload placed).length = 8 * placed.length := by
  induction placed with
  | nil => rfl
  | cons first rest ih =>
    simp only [indexPayload, List.flatMap_cons, List.length_append, leBytes_length,
      List.length_cons] at ih ⊢
    omega

def entryOf (record : SectionRecord) : IndexEntry where
  sectionType := record.header.sectionType
  offsetFromBase := record.fileOffset

section Placed

theorem mem_records {sections : List Section} {start : Nat} {record : SectionRecord}
    (member : record ∈ records start sections) :
    CanonicalType record.header.sectionType ∧
      record.fileOffset + headerLen ≤ start + total sections := by
  induction sections generalizing start with
  | nil => cases member
  | cons first rest ih =>
    rw [records, List.mem_cons] at member
    simp only [total, List.map_cons, List.sum_cons, Section.width] at ih ⊢
    rcases member with rfl | later
    · exact ⟨first.writable.sectionType, by simp only; omega⟩
    · obtain ⟨canonical, bound⟩ := ih later
      have width : first.width = headerLen + first.payload.length := rfl
      exact ⟨canonical, by omega⟩

theorem records_append (sections more : List Section) (start : Nat) :
    records start (sections ++ more) =
      records start sections ++ records (start + total sections) more := by
  induction sections generalizing start with
  | nil => simp [records, total]
  | cons first rest ih =>
    simp only [List.cons_append, records, ih, total, List.map_cons, List.sum_cons, Nat.add_assoc]

theorem headers_records (sections : List Section) (start : Nat) :
    (records start sections).map (·.header) = sections.map (·.header) := by
  induction sections generalizing start with
  | nil => rfl
  | cons first rest ih => rw [records, List.map_cons, List.map_cons, ih]

/-- A section's entry, whatever the base. -/
theorem entries_eq (sections : List Section) (base start : Nat) :
    (records (base + start) sections).map
        (fun record => { sectionType := record.header.sectionType,
                         offsetFromBase := record.fileOffset - base : IndexEntry }) =
      (records start sections).map entryOf := by
  induction sections generalizing start with
  | nil => rfl
  | cons first rest ih =>
    simp only [records, List.map_cons, entryOf, Nat.add_sub_cancel_left, Nat.add_assoc]
    exact congrArg _ (ih (start + first.width))

/-- Sections are never empty, so that their offsets increase. -/
theorem collectEntries_records {sections : List Section} {start : Nat} {previous : Option Nat}
    (small : ∀ record ∈ records start sections, record.fileOffset < 2 ^ 48)
    (after : ∀ offset, previous = some offset → offset < start) :
    SectionIndex.collectEntries previous ((records start sections).map rowOf) =
      .ok ((records start sections).map entryOf) := by
  induction sections generalizing start previous with
  | nil => rfl
  | cons first rest ih =>
    have here := small _ List.mem_cons_self
    simp only [records, List.map_cons, SectionIndex.collectEntries, offsetOf_rowOf here,
      typeOf_rowOf here, fromU16_asU16 first.writable.sectionType]
    rw [refuseIf_of_not, ok_bind, ih, ok_bind]
    · rfl
    · exact fun record member => small record (List.mem_cons_of_mem _ member)
    · intro offset same
      cases same
      simp only [Section.width, headerLen]
      omega
    · cases previous with
      | none => simp
      | some offset =>
        have lt := after offset rfl
        simpa using lt

theorem parseEntries_records {sections : List Section} {start : Nat} {index : SectionRecord}
    (small : ∀ record ∈ records start sections, record.fileOffset < 2 ^ 48)
    (last : (records start sections).getLast? = some index)
    (typed : index.header.sectionType = .sectionIndex) (fileOffset : Nat) :
    SectionIndex.parseEntries (indexPayload (records start sections)) fileOffset =
      .ok { entries := (records start sections).map entryOf, fileOffset } := by
  have some_ : 0 < (records start sections).length := by
    apply List.length_pos_of_mem
    exact List.mem_of_getLast? last
  unfold SectionIndex.parseEntries
  rw [indexPayload_length, refuseIf_of_not (by omega), ok_bind, refuseIf_of_not (by omega), ok_bind,
    rows_indexPayload small, collectEntries_records small (by simp), ok_bind]
  simp only [List.getLast?_map, last, Option.map_some, entryOf, typed]
  rw [refuseIf_of_not (by simp), ok_bind]
  rfl

end Placed

section Walk

variable {build : Build} {source : ImageSource} {image : Bytes}

/-- A section read back from where it was put. -/
theorem sectionAt_placed {before rest : Bytes} {section_ : Section}
    (split : image = before ++ (section_.bytes ++ rest)) :
    sectionAt image before.length = .ok section_.header := by
  have hash := write_length section_.writable.hash
  have size := congrArg List.length split
  simp only [List.length_append, section_.bytes_length, Section.width] at size
  have head : field image before.length headerLen = section_.header.write := by
    apply field_of_split _ rfl hash
    · exact section_.payload ++ rest
    · rw [split, Section.bytes, List.append_assoc]
  unfold sectionAt
  rw [refuseIf_of_not (by omega), ok_bind, head, parse_write section_.writable, ok_bind,
    section_.sized, refuseIf_of_not (by omega)]
  rfl

theorem walk_records (serves : source.Serves image) (fits : image.length < sliceLimit)
    {sections : List Section} {before : Bytes} (split : image = before ++ encode sections) :
    walkSections build source before.length = .ok (records before.length sections) := by
  induction sections generalizing before with
  | nil =>
    have size := congrArg List.length split
    simp only [encode, List.flatMap_nil, List.append_nil] at size
    rw [walkSections, if_neg (by rw [serves.len_eq]; omega)]
    rfl
  | cons first rest ih =>
    rw [encode, List.flatMap_cons] at split
    have size := congrArg List.length split
    simp only [List.length_append, first.bytes_length, Section.width] at size
    have width : headerLen = 64 := rfl
    rw [walkSections_step serves fits (by omega), sectionAt_placed split, ok_bind, first.sized]
    have next := @ih (before ++ first.bytes) (by rw [split, encode, List.append_assoc])
    rw [List.length_append, first.bytes_length, Section.width] at next
    rw [next, ok_bind, records, Section.width]

end Walk

/-- An uncompressed index behind `body`, one row for each section of it and a last one for itself. -/
structure Indexes (index : Section) (body : List Section) : Prop where
  typed : index.header.sectionType = .sectionIndex
  plain : index.header.compression = .none
  lists : index.payload =
    indexPayload (records 0 body ++ [{ fileOffset := total body, header := index.header }])

section Tail

variable {body : List Section} {index : Section} (indexes : Indexes index body)
  (small : total body < 2 ^ 48)

theorem records_indexed (start : Nat) :
    records start (body ++ [index]) =
      records start body ++ [{ fileOffset := start + total body, header := index.header }] := by
  rw [records_append]
  rfl

theorem total_indexed : total (body ++ [index]) = total body + index.width := by
  simp [total]

variable {build : Build} {source : ImageSource} {front image : Bytes}
  (serves : source.Serves image) (fits : image.length < sliceLimit)
  (split : image = front ++ encode (body ++ [index]))

include split in
theorem image_length : image.length = front.length + (total body + index.width) := by
  rw [split, List.length_append, encode_length, total_indexed]

include indexes in
/-- The rows end with the index's own. -/
theorem payload_eq : index.payload =
    indexPayload (records 0 body) ++
      leBytes 8 (rowOf { fileOffset := total body, header := index.header }) := by
  rw [indexes.lists, indexPayload, List.flatMap_append]
  simp [indexPayload]

include small

theorem records_small {record : SectionRecord} (member : record ∈ records 0 (body ++ [index])) :
    record.fileOffset < 2 ^ 48 := by
  rw [records_indexed, List.mem_append, List.mem_singleton] at member
  rcases member with placed | rfl
  · have bound := (mem_records placed).2
    omega
  · simpa using small

include indexes split

/-- The last eight bytes are the row that lists the index. -/
theorem tail_eq : field image (image.length - 8) 8 =
    leBytes 8 (rowOf { fileOffset := total body, header := index.header }) := by
  have size := image_length split
  have payload := payload_eq indexes
  have width := congrArg List.length payload
  simp only [List.length_append, leBytes_length] at width
  apply field_of_split _ _ (leBytes_length _ _)
  · exact front ++ (encode body ++ (index.header.write ++ indexPayload (records 0 body)))
  · exact []
  · rw [split, encode, List.flatMap_append, List.flatMap_singleton, Section.bytes, payload]
    simp only [encode, List.append_assoc, List.append_nil]
  · simp only [List.length_append, encode_length, write_length index.writable.hash, size,
      Section.width]
    omega

include serves fits

theorem locate_index :
    SectionIndex.locate build source front.length
        (rowOf { fileOffset := total body, header := index.header }) =
      .ok { entries := (records 0 (body ++ [index])).map entryOf
            fileOffset := front.length + total body } := by
  have size := image_length split
  have word := fits
  rw [sliceLimit_eq] at word
  have wide : headerLen = 64 := rfl
  have width : index.width = headerLen + index.payload.length := rfl
  have lies : image =
      (front ++ encode body) ++ (index.header.write ++ (index.payload ++ [])) := by
    rw [split, encode, List.flatMap_append, List.flatMap_singleton, Section.bytes, encode,
      List.append_nil, List.append_assoc]
  have before : (front ++ encode body).length = front.length + total body := by
    rw [List.length_append, encode_length]
  have hash := write_length index.writable.hash
  have head : field image (front.length + total body) headerLen = index.header.write :=
    field_of_split lies before hash
  have payload : field image (front.length + total body + headerLen) index.payload.length =
      index.payload := by
    apply field_of_split _ _ rfl
    · exact front ++ encode body ++ index.header.write
    · exact []
    · rw [lies]
      simp only [List.append_assoc]
    · rw [List.length_append, before, hash]
  have offset : SectionIndex.offsetOf (rowOf { fileOffset := total body, header := index.header }) =
      total body := offsetOf_rowOf small
  have near : saturatingAddWord (front.length + total body) headerLen =
      front.length + total body + headerLen := by
    have below : front.length + total body + headerLen ≤ wordLimit - 1 := by
      rw [wordLimit_eq]
      omega
    rw [saturatingAddWord_eq, Nat.min_eq_left below]
  unfold SectionIndex.locate
  rw [offset, checkedAddWord_of_lt (by rw [wordLimit_eq]; omega), okOr_some, ok_bind,
    serves.len_eq, near, refuseIf_of_not (by omega), ok_bind,
    serves.reads headerLen _ (by omega), ok_bind, head, parse_write index.writable, ok_bind,
    indexes.typed, refuseIf_of_not (by simp), ok_bind, indexes.plain,
    refuseIf_of_not (by simp), ok_bind, Arith.add_of_lt _ (by rw [wordLimit_eq]; omega), ok_bind,
    index.sized, checkedAddWord_of_lt (by rw [wordLimit_eq]; omega), okOr_some, ok_bind,
    refuseIf_of_not (by omega), ok_bind, serves.readRange fits (by omega), payload, ok_bind]
  have listed : index.payload = indexPayload (records 0 (body ++ [index])) := by
    rw [indexes.lists, records_indexed, Nat.zero_add]
  rw [listed]
  have last : (records 0 (body ++ [index])).getLast? =
      some { fileOffset := 0 + total body, header := index.header } := by
    rw [records_indexed]
    simp
  apply parseEntries_records _ last indexes.typed
  exact fun record member => records_small small member

theorem fromSource_indexed :
    SectionIndex.fromSource build source front.length =
      .ok (some { entries := (records 0 (body ++ [index])).map entryOf
                  fileOffset := front.length + total body }) := by
  have size := image_length split
  have wide : headerLen = 64 := rfl
  have width : index.width = headerLen + index.payload.length := rfl
  have row : rowOf { fileOffset := total body, header := index.header } < 256 ^ 8 := rowOf_lt small
  have kind : SectionIndex.typeOf (rowOf { fileOffset := total body, header := index.header }) =
      SectionType.sectionIndex.asU16 := by
    rw [← indexes.typed]
    exact typeOf_rowOf small
  unfold SectionIndex.fromSource
  rw [serves.len_eq]
  dsimp only
  rw [if_neg (by omega), serves.reads 8 _ (by omega), ok_bind, tail_eq indexes small split,
    leNat_leBytes row, if_neg (by simp [kind]),
    locate_index indexes small serves fits split, ok_bind]
  rfl

end Tail

/-- The image opens, the index is one for one the walk's sections, and both find the same. -/
theorem index_agrees (build : Build) {front : Bytes} {body : List Section} {index : Section}
    (indexes : Indexes index body) (small : total body < 2 ^ 48) {source : ImageSource}
    (serves : source.Serves (front ++ encode (body ++ [index])))
    (fits : (front ++ encode (body ++ [index])).length < sliceLimit)
    (detected : detectBaseOffsetIn build source = .ok front.length) :
    ∃ image found, Image.fromSource build source = .ok image ∧ image.sectionIndex = some found ∧
      image.baseOffset = front.length ∧
      image.sections.map (·.header) = (body ++ [index]).map (·.header) ∧
      found.entries = image.sections.map (fun record =>
        { sectionType := record.header.sectionType,
          offsetFromBase := record.fileOffset - image.baseOffset }) ∧
      ∀ kind, found.find kind =
        (image.findSection kind).map (fun record => record.fileOffset - image.baseOffset) := by
  have walked := @walk_records build source _ serves fits _ front rfl
  obtain ⟨found, rows, located⟩ : ∃ found : SectionIndex,
      found.entries = (records 0 (body ++ [index])).map entryOf ∧
        SectionIndex.fromSource build source front.length = .ok (some found) :=
    ⟨_, rfl, fromSource_indexed indexes small serves fits rfl⟩
  rw [← entries_eq _ front.length, Nat.add_zero] at rows
  refine ⟨{ source, baseOffset := front.length,
            sections := records front.length (body ++ [index]), sectionIndex := some found },
    found, ?_, rfl, rfl, headers_records _ _, rows, ?_⟩
  · unfold Image.fromSource Image.build
    rw [detected, ok_bind, walked, ok_bind, located, ok_bind]
    rfl
  · intro kind
    simp only [SectionIndex.find, Image.findSection, rows, List.find?_map, Option.map_map]
    rfl

section Sample

/-- A header of the sample's version in front of `payload`. -/
def headerFor (sectionType : SectionType) (payload : Bytes) : SectionHeader where
  major := 2
  minor := 5
  sha512_256 := List.replicate 32 0
  xxh3_64 := 0
  number := 0
  sectionType := sectionType
  compression := .none
  payloadLen := UInt64.ofNat payload.length

def sampleSection (sectionType : SectionType) (payload : Bytes)
    (canonical : CanonicalType sectionType) (short : payload.length < 2 ^ 64) : Section where
  header := headerFor sectionType payload
  payload := payload
  writable := ⟨rfl, rfl, (by decide : (5 : UInt8) ≤ 6), canonical, by intro value same; cases same⟩
  sized := by
    simp only [headerFor, UInt64.toNat_ofNat']
    omega

def sampleBlock : Section :=
  sampleSection .block [65, 65, 65] (by intro value same; cases same) (by decide)

/-- One block and its index. -/
def sampleIndex : Section :=
  sampleSection .sectionIndex
    (leBytes 8 0 ++ leBytes 8 (9 * 2 ^ 48 + 67)) (by intro value same; cases same) (by decide)

def sampleFront : Bytes := [35, 33, 10]

theorem sample_indexes : Indexes sampleIndex [sampleBlock] where
  typed := rfl
  plain := rfl
  lists := by decide

theorem index_agrees_sample :
    ∃ image found,
      Image.fromSource .checked (.ofVec (sampleFront ++ encode [sampleBlock, sampleIndex])) =
        .ok image ∧ image.sectionIndex = some found ∧
      found.find .block = (image.findSection .block).map (·.fileOffset - image.baseOffset) := by
  have fits : (sampleFront ++ encode ([sampleBlock] ++ [sampleIndex])).length < sliceLimit := by
    decide +kernel
  obtain ⟨image, found, opened, holds, -, -, -, same⟩ :=
    index_agrees .checked sample_indexes (by decide) (ImageSource.serves_ofVec fits) fits
      (by decide +kernel : detectBaseOffsetIn .checked
        (.ofVec (sampleFront ++ encode ([sampleBlock] ++ [sampleIndex]))) = .ok sampleFront.length)
  exact ⟨image, found, opened, holds, same .block⟩

end Sample

end Rdwarfs.Guarantees.IndexedImage
