import Rdwarfs.Guarantees.ElidedFields
import Rdwarfs.Guarantees.ListOverruns
import Rdwarfs.Lib.Bits

/-!
# Lists as they were packed

A writer puts the items of a list at equal steps of bytes or bits from its data on, and each
field of an item at its own offset and width. Where every position is in the buffer, the range,
the steps, the offsets and the bit reader together find the numbers that were packed.
-/
namespace Rdwarfs.Guarantees.PackedLists

open Lib.Machine Lib.Bits Source Source.Metadata FrozenArithmetic ElidedFields ListOverruns

section Definitions

/-- The bit that a position denotes. -/
def bitOf (pos : Pos) : Nat := 8 * pos.byte + pos.bit

/-- Bits from a position to a field of it. -/
def offsetBits (field : Field) : Nat :=
  if field.offset.toInt < 0 then (-field.offset.toInt).toNat else 8 * field.offset.toInt.toNat

/-- Bits from an item to the next. -/
def stride (item : Layout) : Nat :=
  if 0 < item.size then 8 * item.size.toNat else item.bits.toNat

/-- The byte that the distances of item `i` count from: its own, unless items step by bits. -/
def anchor (item : Layout) (data i : Nat) : Nat :=
  if 0 < item.size then data + i * item.size.toNat else data

/-- A number of at most 64 bits at a bit of the buffer. -/
structure NumberAt (m : Metadata) (start : Nat) (layout : Layout) (value : Nat) : Prop where
  width : layout.bits.toNat ≤ 64
  stored : Stores m.frozen.bytes start layout.bits.toNat value

instance (m : Metadata) (start : Nat) (layout : Layout) (value : Nat) :
    Decidable (NumberAt m start layout value) :=
  decidable_of_iff (layout.bits.toNat ≤ 64 ∧
      Stores m.frozen.bytes start layout.bits.toNat value)
    ⟨fun ⟨width, stored⟩ => ⟨width, stored⟩, fun number => ⟨number.width, number.stored⟩⟩

/-- A field of the value that starts at a bit; one that its layout leaves out is zero. -/
def FieldAt (m : Metadata) (start : Nat) : Option Field → Nat → Prop
  | none, value => value = 0
  | some field, value => ∃ layout, m.schema.layout field.layoutId = .ok layout ∧
      NumberAt m (start + offsetBits field) layout value

/-- A range of `count` items from byte `data` on, which is as far from the range as it says. -/
structure RangeAt (m : Metadata) (layout : Layout) (pos : Pos) (item : Layout) (data count : Nat) :
    Prop where
  inside : bitOf pos ≤ 8 * m.frozen.bytes.length
  counted : FieldAt m (bitOf pos) (layout.field 2) count
  distance : count ≠ 0 → ∃ distance, FieldAt m (bitOf pos) (layout.field 1) distance ∧
    data = pos.byte + distance
  items : ∃ field, layout.field 3 = some field ∧ m.schema.layout field.layoutId = .ok item
  within : ∀ i < count, 8 * data + i * stride item ≤ 8 * m.frozen.bytes.length

/-- The distance of a range is not one bit wide, which would make the range an optional. -/
def WideDistance (m : Metadata) (layout : Layout) : Prop :=
  ∀ field, layout.field 1 = some field →
    ∃ own, m.schema.layout field.layoutId = .ok own ∧ own.bits ≠ 1

/-- A root list whose range is packed so. -/
def ListAt (m : Metadata) (id : Int16) (item : Layout) (data count : Nat) : Prop :=
  ∃ layout pos, Located m id layout pos ∧ WideDistance m layout ∧
    RangeAt m layout pos item data count

/-- Values packed as a list of integers. -/
structure PackedInts (m : Metadata) (id : Int16) (values : List Nat) (item : Layout) (data : Nat) :
    Prop where
  list : ListAt m id item data values.length
  integral : item.fields = []
  packed : ∀ i value, values[i]? = some value →
    NumberAt m (8 * data + i * stride item) item value

/-- The values of one item, by field. -/
abbrev Record := Int16 → Nat

/-- Records packed as a list of structs, of which `ids` are the fields. -/
structure PackedStructs (m : Metadata) (id : Int16) (ids : List Int16) (records : List Record)
    (item : Layout) (data : Nat) : Prop where
  list : ListAt m id item data records.length
  known : ∀ column ∈ ids, ∀ field, item.field column = some field →
    ∃ own, m.schema.layout field.layoutId = .ok own
  packed : ∀ i record, records[i]? = some record → ∀ column ∈ ids,
    FieldAt m (8 * data + i * stride item) (item.field column) (record column)

/-- The rows are returned if the columns `narrow` of every record fit their words, else the run
fails. -/
def Decodes {τ : Type} (narrow : List Int16) (records : List Record) (run : Result (List τ))
    (build : Record → τ) : Prop :=
  ((∀ record ∈ records, ∀ column ∈ narrow, record column < 2 ^ 32) →
    run = .ok (records.map build)) ∧
  ((∃ record ∈ records, ∃ column ∈ narrow, 2 ^ 32 ≤ record column) →
    ∃ reason, run = fail reason)

end Definitions

section Positions

variable {m : Metadata} {start : Nat} {pos : Pos}

theorem spells_leNat (bytes : Bytes) : Spells bytes (leNat bytes) := by
  induction bytes with
  | nil => exact spells_nil
  | cons byte rest ih => exact spells_cons ih

variable (short : 8 * m.frozen.bytes.length < wordLimit)
include short

theorem readU64_of_stores {offset bits value : Nat} (narrow : bits ≤ 64)
    (stores : Stores m.frozen.bytes offset bits value) (arith : Arith) :
    readU64 arith m.frozen.bytes offset bits = .ok value := by
  have inside := stores.inside
  by_cases none_ : bits = 0
  · subst none_
    rw [readU64, if_pos rfl, (stores_zero_iff.mp stores).1]
  · rw [readU64_of_le (bitLen_eq arith short) (Nat.pos_of_ne_zero none_) narrow (by omega) inside,
      stores.value_eq (spells_leNat _)]

theorem readIntegral_of_number {layout : Layout} {value : Nat}
    (number : NumberAt m (bitOf pos) layout value) :
    m.frozen.readIntegral pos layout.bits = .ok value := by
  have inside := number.stored.inside
  rw [bitOf] at inside
  rw [Frozen.readIntegral, absoluteBit_of_lt (by omega),
    show pos.byte * 8 + pos.bit = bitOf pos by rw [bitOf, Nat.mul_comm]]
  exact readU64_of_stores short number.width number.stored _

/-- A field in the buffer is as many bits further as its offset says. -/
theorem child_of_le {field : Field} (inside : bitOf pos + offsetBits field ≤ 8 * m.frozen.bytes.length) :
    ∃ at_, m.frozen.child pos field = .ok at_ ∧ bitOf at_ = bitOf pos + offsetBits field := by
  rw [bitOf, offsetBits] at inside
  unfold Frozen.child Pos.child
  split
  · next back =>
    rw [if_pos back] at inside
    refine ⟨{ pos with bit := pos.bit + (-field.offset.toInt).toNat }, ?_, ?_⟩
    · rw [Arith.add_of_lt _ (by omega)]
      rfl
    · rw [offsetBits, if_pos back, bitOf, bitOf, Nat.add_assoc]
  · next forth =>
    rw [if_neg forth] at inside
    refine ⟨{ pos with byte := pos.byte + field.offset.toInt.toNat }, ?_, ?_⟩
    · rw [Arith.add_of_lt _ (by omega)]
      rfl
    · simp only [offsetBits, if_neg forth, bitOf]
      omega

/-- A field that is there is read with the layout that the schema has for it. -/
theorem readField_of_fieldAt {field : Field} {value : Nat}
    (holds : FieldAt m (bitOf pos) (some field) value) :
    ∃ own at_, m.schema.layout field.layoutId = .ok own ∧ m.frozen.child pos field = .ok at_ ∧
      m.frozen.readIntegral at_ own.bits = .ok value := by
  obtain ⟨own, known, number⟩ := holds
  have inside : bitOf pos + offsetBits field ≤ 8 * m.frozen.bytes.length :=
    Nat.le_of_add_right_le number.stored.inside
  obtain ⟨at_, placed, same⟩ := child_of_le short inside
  rw [← same] at number
  exact ⟨own, at_, known, placed, readIntegral_of_number short number⟩

theorem readRangeField_of_fieldAt {field : Option Field} {value : Nat}
    (holds : FieldAt m (bitOf pos) field value) :
    m.frozen.readRangeField pos field = .ok value := by
  cases field with
  | none =>
    rw [show value = 0 from holds]
    rfl
  | some field =>
    obtain ⟨own, at_, known, placed, read⟩ := readField_of_fieldAt short holds
    rw [Frozen.readRangeField]
    simp only [show m.frozen.schema.layout field.layoutId = .ok own from known, placed, ok_bind, read]

end Positions

section Ranges

variable {m : Metadata} {id : Int16} {layout item : Layout} {pos : Pos} {data count : Nat}

/-- A range with an item layout is an array. -/
theorem WideDistance.kind (wide : WideDistance m layout) {field : Field}
    (items : layout.field 3 = some field) :
    LayoutKind.of m.schema layout = .ok (.array field.layoutId) := by
  have marks : LayoutKind.marksOptional m.schema (layout.field 1) = .ok false := by
    cases first : layout.field 1 with
    | none => rfl
    | some distance =>
      obtain ⟨own, known, bits⟩ := wide distance first
      simp [LayoutKind.marksOptional, known, bits]
  simp only [LayoutKind.of, fields_ne_nil items, Bool.false_eq_true, if_false, marks, ok_bind,
    items, pure_eq_ok]

variable (short : 8 * m.frozen.bytes.length < wordLimit)
include short

theorem readRange_of_fieldAt (inside : bitOf pos ≤ 8 * m.frozen.bytes.length)
    (counted : FieldAt m (bitOf pos) (layout.field 2) count)
    (placed : count ≠ 0 → ∃ distance, FieldAt m (bitOf pos) (layout.field 1) distance ∧
      data = pos.byte + distance ∧ data ≤ m.frozen.bytes.length) :
    m.frozen.readRange pos layout = .ok
      ⟨if count = 0 then pos.byte else data, count, (layout.field 3).map (·.layoutId)⟩ := by
  have counts := readRangeField_of_fieldAt short counted
  rw [bitOf] at inside
  by_cases none_ : count = 0
  · rw [Frozen.readRange, counts, ok_bind, Frozen.readDistance, if_pos none_, if_pos none_, ok_bind,
      Arith.checkedAdd_of_lt _ (by omega)]
    rfl
  · obtain ⟨distance, holds, rfl, within⟩ := placed none_
    rw [Frozen.readRange, counts, ok_bind, Frozen.readDistance, if_neg none_, if_neg none_,
      readRangeField_of_fieldAt short holds, ok_bind, Arith.checkedAdd_of_lt _ (by omega)]
    rfl

theorem RangeAt.read (range : RangeAt m layout pos item data count) :
    m.frozen.readRange pos layout = .ok
      ⟨if count = 0 then pos.byte else data, count, (layout.field 3).map (·.layoutId)⟩ := by
  refine readRange_of_fieldAt short range.inside range.counted fun some_ => ?_
  obtain ⟨distance, holds, placed⟩ := range.distance some_
  have first := range.within 0 (Nat.pos_of_ne_zero some_)
  exact ⟨distance, holds, placed, by omega⟩

/-- Each item is found at its step from the data, and its distances count from its anchor. -/
theorem RangeAt.element (range : RangeAt m layout pos item data count) {i : Nat} (below : i < count)
    {field : Field} (items : layout.field 3 = some field) :
    ∃ at_, m.frozen.elementPos ⟨data, count, some field.layoutId⟩ i = .ok at_ ∧
      bitOf at_ = 8 * data + i * stride item ∧ at_.byte = anchor item data i := by
  obtain ⟨other, named, own⟩ := range.items
  cases items.symm.trans named
  have inside := range.within i below
  have known : m.frozen.schema.layout field.layoutId = .ok item := own
  rw [Frozen.elementPos]
  simp only [known, ok_bind]
  by_cases sized : 0 < item.size
  · rw [stride, if_pos sized, Nat.mul_left_comm] at inside
    refine ⟨⟨data + i * item.size.toNat, 0⟩, ?_, ?_, by rw [anchor, if_pos sized]⟩
    · rw [if_pos sized, Arith.checkedMul_of_lt _ (by omega), okOr_some, ok_bind,
        Arith.checkedAdd_of_lt _ (by omega)]
      rfl
    · simp only [bitOf, stride, if_pos sized]
      rw [Nat.mul_left_comm]
      omega
  · rw [stride, if_neg sized] at inside
    refine ⟨⟨data, i * item.bits.toNat⟩, ?_, by rw [bitOf, stride, if_neg sized],
      by rw [anchor, if_neg sized]⟩
    rw [if_neg sized, Arith.checkedMul_of_lt _ (by omega)]
    rfl

omit short in
/-- What is no optional is where its field is. -/
theorem resolveList_of_located (located : Located m id layout pos) {kind : LayoutKind}
    (classified : LayoutKind.of m.schema layout = .ok kind)
    (bare : ∀ value, kind ≠ .optional value) : m.resolveList id = .ok (some (layout, pos)) := by
  cases located with
  | @wrapped field at_ outer _ opt value found own optional read present content =>
    simp only [Metadata.resolveList, found, own, optional, read, present, content, ok_bind,
      not_true_eq_false, if_false, pure_eq_ok]
  | @bare field at_ _ found own =>
    simp only [Metadata.resolveList, found, own, classified, ok_bind]
    cases kind with
    | optional value => exact absurd rfl (bare value)
    | _ => rfl

/-- The accessors find the list, and in it the items. -/
theorem ListAt.listed (list : ListAt m id item data count) (few : count ≤ defaultListCap) :
    ∃ range, Listed m id range item ∧ range.count = count ∧
      ∀ i < count, ∃ at_, m.frozen.elementPos range i = .ok at_ ∧
        bitOf at_ = 8 * data + i * stride item ∧ at_.byte = anchor item data i := by
  obtain ⟨layout, pos, located, wide, range⟩ := list
  obtain ⟨field, items, own⟩ := range.items
  have kind := wide.kind items
  have read := range.read short
  rw [items] at read
  refine ⟨_, ⟨layout, pos, field.layoutId, resolveList_of_located located kind (by simp), kind,
    read, few, own⟩, rfl, fun i below => ?_⟩
  rw [if_neg (Nat.ne_of_gt (Nat.zero_lt_of_lt below))]
  exact range.element short below items

end Ranges

section Columns

/-- One row: `value` is returned if the columns `narrow` fit their words, else the run fails. -/
def Narrows {τ : Type} (narrow : List Int16) (record : Record) (run : Result τ) (value : τ) : Prop :=
  ((∀ column ∈ narrow, record column < 2 ^ 32) → run = .ok value) ∧
    ((∃ column ∈ narrow, 2 ^ 32 ≤ record column) → ∃ reason, run = fail reason)

variable {m : Metadata} {τ : Type} {record : Record} {narrow : List Int16} {value : τ}

theorem narrows_ok : Narrows [] record (.ok value) value := ⟨fun _ => rfl, by simp⟩

/-- A 32-bit column refuses what does not fit. -/
theorem narrows_u32 {column : Column} {pos : Pos} {id : Int16} {next : UInt32 → Result τ}
    (read : m.readColumn pos column = .ok (record id))
    (rest : Narrows narrow record (next (UInt32.ofNat (record id))) value) :
    Narrows (id :: narrow) record (m.readColumnU32 pos column >>= next) value := by
  by_cases fits : record id < 2 ^ 32
  · have word : m.readColumnU32 pos column = .ok (UInt32.ofNat (record id)) := by
      rw [Metadata.readColumnU32, read, ok_bind, Metadata.u32Of, if_pos fits]
    rw [word, ok_bind]
    refine ⟨fun all => rest.1 fun other member => all other (List.mem_cons_of_mem _ member), ?_⟩
    rintro ⟨other, member, large⟩
    rcases List.mem_cons.mp member with rfl | member
    · exact absurd fits (Nat.not_lt.mpr large)
    · exact rest.2 ⟨other, member, large⟩
  · have refused : ∃ reason, m.readColumnU32 pos column = fail reason :=
      ⟨_, by rw [Metadata.readColumnU32, read, ok_bind, Metadata.u32Of, if_neg fits]⟩
    obtain ⟨reason, refused⟩ := refused
    refine ⟨fun all => absurd (all id List.mem_cons_self) fits, fun _ => ⟨reason, ?_⟩⟩
    rw [refused]
    rfl

/-- A 64-bit column takes any value. -/
theorem narrows_u64 {column : Column} {pos : Pos} {id : Int16} {next : UInt64 → Result τ}
    (read : m.readColumn pos column = .ok (record id))
    (rest : Narrows narrow record (next (UInt64.ofNat (record id))) value) :
    Narrows narrow record (m.readColumnU64 pos column >>= next) value := by
  rw [Metadata.readColumnU64, read, ok_bind]
  exact rest

/-- The first record with a column too large ends the loop. -/
theorem decodes_collect {body : Nat → Result τ} {build : Record → τ} {records : List Record}
    {first : Nat} (each : ∀ i record, records[i]? = some record →
      Narrows narrow record (body (first + i)) (build record)) :
    Decodes narrow records (collect body (List.range' first records.length)) build := by
  induction records generalizing first with
  | nil => exact ⟨fun _ => rfl, by simp⟩
  | cons record rest ih =>
    have here : Narrows narrow record (body first) (build record) := each 0 record rfl
    obtain ⟨fine, stops⟩ := @ih (first + 1) fun i other found => by
      rw [Nat.add_assoc, Nat.add_comm 1 i]
      exact each (i + 1) other (by simpa using found)
    simp only [Decodes, List.length_cons, List.range'_succ, collect, List.map_cons]
    by_cases fits : ∀ column ∈ narrow, record column < 2 ^ 32
    · rw [here.1 fits, ok_bind]
      refine ⟨fun all => ?_, ?_⟩
      · rw [fine fun other member => all other (List.mem_cons_of_mem _ member)]
        rfl
      · rintro ⟨other, member, column, listed, large⟩
        rcases List.mem_cons.mp member with rfl | member
        · exact absurd (fits column listed) (Nat.not_lt.mpr large)
        · obtain ⟨reason, stopped⟩ := stops ⟨other, member, column, listed, large⟩
          exact ⟨reason, by rw [stopped]; rfl⟩
    · refine ⟨fun all => absurd (all record List.mem_cons_self) fits, fun _ => ?_⟩
      simp only [not_forall, Nat.not_lt] at fits
      obtain ⟨column, member, large⟩ := fits
      obtain ⟨reason, stopped⟩ := here.2 ⟨column, member, large⟩
      exact ⟨reason, by rw [stopped]; rfl⟩

/-- Rows of columns: what `prepare` resolves once reads every item. -/
def Columnar (m : Metadata) {γ τ : Type} (ids narrow : List Int16) (prepare : Layout → Result γ)
    (decode : γ → Pos → Result τ) (build : Record → τ) : Prop :=
  ∀ item, (∀ id ∈ ids, ∃ column, m.column item id = .ok column) →
    ∃ columns, prepare item = .ok columns ∧ ∀ pos record,
      (∀ id ∈ ids, ∀ column, m.column item id = .ok column →
        m.readColumn pos column = .ok (record id)) →
      Narrows narrow record (decode columns pos) (build record)

variable (short : 8 * m.frozen.bytes.length < wordLimit)
include short

theorem readColumn_of_fieldAt {item : Layout} {id : Int16} {pos : Pos} {value : Nat}
    (holds : FieldAt m (bitOf pos) (item.field id) value) {column : Column}
    (resolved : m.column item id = .ok column) : m.readColumn pos column = .ok value := by
  unfold Metadata.column at resolved
  cases found : item.field id with
  | none =>
    rw [found] at resolved holds
    cases resolved
    rw [show value = 0 from holds]
    rfl
  | some field =>
    rw [found] at resolved holds
    obtain ⟨own, at_, known, placed, read⟩ := readField_of_fieldAt short holds
    simp only [known, ok_bind, pure_eq_ok, Except.ok.injEq] at resolved
    subst resolved
    simp only [Metadata.readColumn, placed, ok_bind, read]

theorem decodeStructList_of_packed {γ : Type} {id : Int16} {ids : List Int16}
    {prepare : Layout → Result γ} {decode : γ → Pos → Result τ} {build : Record → τ}
    (columnar : Columnar m ids narrow prepare decode build) {records : List Record} {item : Layout}
    {data : Nat} (packed : PackedStructs m id ids records item data)
    (few : records.length ≤ defaultListCap) :
    Decodes narrow records (m.decodeStructList id prepare decode) build := by
  obtain ⟨range, listed, count, element⟩ := packed.list.listed short few
  have resolves : ∀ id ∈ ids, ∃ column, m.column item id = .ok column := by
    intro id member
    unfold Metadata.column
    cases found : item.field id with
    | none => exact ⟨_, rfl⟩
    | some field =>
      obtain ⟨own, known⟩ := packed.known id member field found
      exact ⟨_, by simp only [known, ok_bind]; rfl⟩
  obtain ⟨columns, prepared, decodes⟩ := columnar item resolves
  rw [decodeStructList_eq, overItems_of_listed listed, prepared, ok_bind, count,
    List.range_eq_range']
  refine decodes_collect fun i record found => ?_
  rw [Nat.zero_add]
  obtain ⟨below, _⟩ := List.getElem?_eq_some_iff.mp found
  obtain ⟨at_, placed, same, _⟩ := element i below
  rw [placed, ok_bind]
  refine decodes at_ record fun column member resolved found_ => ?_
  have holds := packed.packed i record found column member
  rw [← same] at holds
  exact readColumn_of_fieldAt short holds found_

end Columns

section Rows

def chunkOf (record : Record) : Chunk where
  block := UInt32.ofNat (record 1)
  offset := UInt32.ofNat (record 2)
  size := UInt32.ofNat (record 3)

def dirEntryOf (record : Record) : DirEntry where
  nameIndex := UInt32.ofNat (record 1)
  inodeNum := UInt32.ofNat (record 2)

def directoryOf (record : Record) : Directory where
  parentEntry := UInt32.ofNat (record 1)
  firstEntry := UInt32.ofNat (record 2)
  selfEntry := UInt32.ofNat (record 3)

def inodeOf (record : Record) : InodeData where
  modeIndex := UInt32.ofNat (record 2)
  ownerIndex := UInt32.ofNat (record 4)
  groupIndex := UInt32.ofNat (record 5)
  atimeOffset := UInt64.ofNat (record 6)
  mtimeOffset := UInt64.ofNat (record 7)
  ctimeOffset := UInt64.ofNat (record 8)
  btimeOffset := UInt64.ofNat (record 9)
  atimeSubsec := UInt64.ofNat (record 10)
  mtimeSubsec := UInt64.ofNat (record 11)
  ctimeSubsec := UInt64.ofNat (record 12)
  btimeSubsec := UInt64.ofNat (record 13)
  nlinkMinusOne := UInt32.ofNat (record 14)

variable {m : Metadata} (short : 8 * m.frozen.bytes.length < wordLimit) {records : List Record}
  {item : Layout} {data : Nat}
include short

theorem chunks_of_packed (packed : PackedStructs m Ids.chunks [1, 2, 3] records item data)
    (few : records.length ≤ defaultListCap) :
    Decodes [1, 2, 3] records m.chunks chunkOf := by
  refine decodeStructList_of_packed short (fun item resolves => ?_) packed few
  obtain ⟨block, first⟩ := resolves 1 (by decide)
  obtain ⟨offset, second⟩ := resolves 2 (by decide)
  obtain ⟨size, third⟩ := resolves 3 (by decide)
  refine ⟨⟨block, offset, size⟩, by simp only [first, second, third, ok_bind, pure_eq_ok],
    fun pos record reads => ?_⟩
  refine narrows_u32 (reads 1 (by decide) block first) ?_
  refine narrows_u32 (reads 2 (by decide) offset second) ?_
  exact narrows_u32 (reads 3 (by decide) size third) narrows_ok

theorem dirEntries_of_packed (packed : PackedStructs m Ids.dirEntries [1, 2] records item data)
    (few : records.length ≤ defaultListCap) :
    Decodes [1, 2] records m.dirEntries dirEntryOf := by
  refine decodeStructList_of_packed short (fun item resolves => ?_) packed few
  obtain ⟨nameIndex, first⟩ := resolves 1 (by decide)
  obtain ⟨inodeNum, second⟩ := resolves 2 (by decide)
  refine ⟨⟨nameIndex, inodeNum⟩, by simp only [first, second, ok_bind, pure_eq_ok],
    fun pos record reads => ?_⟩
  refine narrows_u32 (reads 1 (by decide) nameIndex first) ?_
  exact narrows_u32 (reads 2 (by decide) inodeNum second) narrows_ok

theorem directories_of_packed (packed : PackedStructs m Ids.directories [1, 2, 3] records item data)
    (few : records.length ≤ defaultListCap) :
    Decodes [1, 2, 3] records m.directories directoryOf := by
  refine decodeStructList_of_packed short (fun item resolves => ?_) packed few
  obtain ⟨parentEntry, first⟩ := resolves 1 (by decide)
  obtain ⟨firstEntry, second⟩ := resolves 2 (by decide)
  obtain ⟨selfEntry, third⟩ := resolves 3 (by decide)
  refine ⟨⟨parentEntry, firstEntry, selfEntry⟩,
    by simp only [first, second, third, ok_bind, pure_eq_ok], fun pos record reads => ?_⟩
  refine narrows_u32 (reads 1 (by decide) parentEntry first) ?_
  refine narrows_u32 (reads 2 (by decide) firstEntry second) ?_
  exact narrows_u32 (reads 3 (by decide) selfEntry third) narrows_ok

/-- The fields of an inode; those that name a table entry or count links are words of 32 bits. -/
def inodeIds : List Int16 := [2, 4, 5, 6, 7, 8, 9, 10, 11, 12, 13, 14]

theorem inodes_of_packed (packed : PackedStructs m Ids.inodes inodeIds records item data)
    (few : records.length ≤ defaultListCap) :
    Decodes [2, 4, 5, 14] records m.inodes inodeOf := by
  refine decodeStructList_of_packed short (fun item resolves => ?_) packed few
  obtain ⟨mode, h2⟩ := resolves 2 (by decide)
  obtain ⟨owner, h4⟩ := resolves 4 (by decide)
  obtain ⟨group, h5⟩ := resolves 5 (by decide)
  obtain ⟨atime, h6⟩ := resolves 6 (by decide)
  obtain ⟨mtime, h7⟩ := resolves 7 (by decide)
  obtain ⟨ctime, h8⟩ := resolves 8 (by decide)
  obtain ⟨btime, h9⟩ := resolves 9 (by decide)
  obtain ⟨atimeSubsec, h10⟩ := resolves 10 (by decide)
  obtain ⟨mtimeSubsec, h11⟩ := resolves 11 (by decide)
  obtain ⟨ctimeSubsec, h12⟩ := resolves 12 (by decide)
  obtain ⟨btimeSubsec, h13⟩ := resolves 13 (by decide)
  obtain ⟨nlink, h14⟩ := resolves 14 (by decide)
  refine ⟨⟨mode, owner, group, atime, mtime, ctime, btime, atimeSubsec, mtimeSubsec, ctimeSubsec,
    btimeSubsec, nlink⟩, ?_, fun pos record reads => ?_⟩
  · simp only [h2, h4, h5, h6, h7, h8, h9, h10, h11, h12, h13, h14, ok_bind, pure_eq_ok]
  · refine narrows_u32 (reads 2 (by decide) mode h2) ?_
    refine narrows_u32 (reads 4 (by decide) owner h4) ?_
    refine narrows_u32 (reads 5 (by decide) group h5) ?_
    refine narrows_u64 (reads 6 (by decide) atime h6) ?_
    refine narrows_u64 (reads 7 (by decide) mtime h7) ?_
    refine narrows_u64 (reads 8 (by decide) ctime h8) ?_
    refine narrows_u64 (reads 9 (by decide) btime h9) ?_
    refine narrows_u64 (reads 10 (by decide) atimeSubsec h10) ?_
    refine narrows_u64 (reads 11 (by decide) mtimeSubsec h11) ?_
    refine narrows_u64 (reads 12 (by decide) ctimeSubsec h12) ?_
    refine narrows_u64 (reads 13 (by decide) btimeSubsec h13) ?_
    exact narrows_u32 (reads 14 (by decide) nlink h14) narrows_ok

end Rows

section Integers

variable {m : Metadata} (short : 8 * m.frozen.bytes.length < wordLimit)
include short

theorem readIntList_of_packed {id : Int16} {values : List Nat} {item : Layout} {data cap : Nat}
    (packed : PackedInts m id values item data) (few : values.length ≤ cap) :
    m.readIntList id cap = .ok values := by
  obtain ⟨layout, pos, located, wide, range⟩ := packed.list
  obtain ⟨field, items, own⟩ := range.items
  have kind := wide.kind items
  have read := range.read short
  rw [items] at read
  have resolved := resolveList_of_located located kind (by simp)
  have number {i : Nat} (below : i < values.length) := packed.packed i _ (List.getElem?_eq_getElem below)
  have listed : m.readIntItems item ⟨if values.length = 0 then pos.byte else data, values.length,
      some field.layoutId⟩ = .ok values := by
    unfold Metadata.readIntItems
    split
    · next hollow =>
      congr 1
      refine (List.eq_replicate_iff.mpr ⟨rfl, fun value member => ?_⟩).symm
      obtain ⟨i, below, rfl⟩ := List.getElem_of_mem member
      have stored := (number below).stored
      rw [hollow] at stored
      exact (stores_zero_iff.mp stored).1
    · rw [collect_eq_ok]
      refine List.forall₂_iff_get.mpr ⟨by simp, fun i _ below => ?_⟩
      obtain ⟨at_, placed, same, _⟩ := range.element short below items
      have stored := number below
      rw [← same] at stored
      rw [if_neg (Nat.ne_of_gt (Nat.zero_lt_of_lt below))]
      simp only [List.get_eq_getElem, List.getElem_range, placed, ok_bind]
      exact readIntegral_of_number short stored
  have capped : (refuseIf (values.length > cap) (.capExceeded "list-count" cap values.length) :
      Result Unit) = .ok () := refuseIf_of_not (Nat.not_lt.mpr few)
  have integral : ¬ ¬ item.fields.isEmpty = true := by simp [packed.integral]
  unfold Metadata.readIntList Metadata.readCappedRange
  rw [resolved, ok_bind]
  dsimp only
  rw [kind, ok_bind, read, ok_bind]
  simp only [Option.map_some, capped, ok_bind, pure_eq_ok]
  rw [own, ok_bind, refuseIf_of_not integral, ok_bind]
  exact listed

end Integers

/-- Integers and structs are read as they were packed, unless a column is too wide for its word. -/
theorem packed_lists_decode (m : Metadata) (short : 8 * m.frozen.bytes.length < wordLimit)
    (item : Layout) (data : Nat) :
    (∀ (id : Int16) (values : List Nat) (cap : Nat), PackedInts m id values item data →
      values.length ≤ cap → m.readIntList id cap = .ok values) ∧
    ∀ records : List Record, records.length ≤ defaultListCap →
      (PackedStructs m Ids.chunks [1, 2, 3] records item data →
        Decodes [1, 2, 3] records m.chunks chunkOf) ∧
      (PackedStructs m Ids.dirEntries [1, 2] records item data →
        Decodes [1, 2] records m.dirEntries dirEntryOf) ∧
      (PackedStructs m Ids.directories [1, 2, 3] records item data →
        Decodes [1, 2, 3] records m.directories directoryOf) ∧
      (PackedStructs m Ids.inodes inodeIds records item data →
        Decodes [2, 4, 5, 14] records m.inodes inodeOf) :=
  ⟨fun _ _ _ packed few => readIntList_of_packed short packed few, fun _ few =>
    ⟨fun packed => chunks_of_packed short packed few,
      fun packed => dirEntries_of_packed short packed few,
      fun packed => directories_of_packed short packed few,
      fun packed => inodes_of_packed short packed few⟩⟩

/-- Items of five bits, a word of eight, and structs of thirteen bits whose second field starts at
bit 5. -/
def packedSchema : Schema where
  fileVersion := 1
  relaxTypeChecks := false
  rootLayout := 5
  layouts := [(0, ⟨1, 8, [], ""⟩), (1, ⟨0, 5, [], ""⟩),
    (2, ⟨2, 0, [(1, ⟨0, 0⟩), (2, ⟨0, 1⟩), (3, ⟨1, 0⟩)], ""⟩),
    (3, ⟨0, 13, [(2, ⟨1, 0⟩), (3, ⟨0, -5⟩)], ""⟩),
    (4, ⟨2, 0, [(1, ⟨0, 0⟩), (2, ⟨0, 1⟩), (3, ⟨3, 0⟩)], ""⟩),
    (5, ⟨4, 0, [(7, ⟨2, 0⟩), (1, ⟨4, 2⟩)], ""⟩)]

/-- Three uids and two chunks. -/
def packedSample : Metadata where
  frozen :=
    { arith := .machine .checked
      schema := packedSchema
      bytes := [4, 3, 4, 2, 193, 71, 9, 249, 55, 1] }
  rootLayout := ⟨4, 0, [(7, ⟨2, 0⟩), (1, ⟨4, 2⟩)], ""⟩

theorem packedSample_list (id : Int16) (data : Nat) (field own : Field) (item : Layout)
    (start : Nat) (count : Nat)
    (root : packedSample.field id = .ok (some (field, ⟨start, 0⟩)))
    (range : packedSample.schema.layout field.layoutId =
      .ok ⟨2, 0, [(1, ⟨0, 0⟩), (2, ⟨0, 1⟩), (3, own)], ""⟩)
    (items : packedSample.schema.layout own.layoutId = .ok item)
    (numbers : NumberAt packedSample (8 * start) ⟨1, 8, [], ""⟩ (data - start) ∧
      NumberAt packedSample (8 * start + 8) ⟨1, 8, [], ""⟩ count)
    (after : start ≤ data)
    (within : ∀ i < count, 8 * data + i * stride item ≤ 8 * packedSample.frozen.bytes.length) :
    ListAt packedSample id item data count := by
  refine ⟨_, _, .bare root range, ?_, ?_⟩
  · rintro _ ⟨⟩
    exact ⟨⟨1, 8, [], ""⟩, by decide, by decide⟩
  exact
    { inside := Nat.le_of_add_right_le numbers.1.stored.inside
      counted := ⟨⟨1, 8, [], ""⟩, by decide, numbers.2⟩
      distance := fun _ => ⟨data - start, ⟨⟨1, 8, [], ""⟩, by decide, numbers.1⟩, by
        simp only
        omega⟩
      items := ⟨own, rfl, items⟩
      within }

theorem packedSample_uids : PackedInts packedSample Ids.uids [1, 30, 17] ⟨0, 5, [], ""⟩ 4 where
  list := packedSample_list 7 4 ⟨2, 0⟩ ⟨1, 0⟩ _ 0 3 (by decide) (by decide)
    (by decide) (by decide) (by decide) (by decide)
  integral := rfl
  packed := by
    intro i value found
    match i with
    | 0 | 1 | 2 =>
      cases found
      decide
    | i + 3 => simp at found

def packedChunks : List Record :=
  [fun id => if id = 2 then 9 else if id = 3 then 200 else 0,
    fun id => if id = 2 then 31 else if id = 3 then 77 else 0]

theorem packedSample_chunks :
    PackedStructs packedSample Ids.chunks [1, 2, 3] packedChunks
      ⟨0, 13, [(2, ⟨1, 0⟩), (3, ⟨0, -5⟩)], ""⟩ 6 where
  list := packedSample_list 1 6 ⟨4, 2⟩ ⟨3, 0⟩ _ 2 2 (by decide) (by decide)
    (by decide) (by decide) (by decide) (by decide)
  known := by
    intro column member field found
    simp only [List.mem_cons, List.not_mem_nil, or_false] at member
    rcases member with rfl | rfl | rfl
    · cases found
    · cases found
      exact ⟨⟨0, 5, [], ""⟩, by decide⟩
    · cases found
      exact ⟨⟨1, 8, [], ""⟩, by decide⟩
  packed := by
    intro i record found column member
    simp only [List.mem_cons, List.not_mem_nil, or_false] at member
    match i with
    | 0 | 1 =>
      cases found
      rcases member with rfl | rfl | rfl
      · rfl
      · exact ⟨⟨0, 5, [], ""⟩, by decide, by decide⟩
      · exact ⟨⟨1, 8, [], ""⟩, by decide, by decide⟩
    | i + 2 => simp [packedChunks] at found

/-- Numbers across byte borders, a column that no chunk has, and a field at a bit offset. -/
theorem packed_lists_decode_sample :
    packedSample.readIntList Ids.uids defaultListCap = .ok [1, 30, 17] ∧
      packedSample.chunks = .ok [⟨0, 9, 200⟩, ⟨0, 31, 77⟩] :=
  ⟨(packed_lists_decode packedSample (by decide) _ _).1 _ _ _ packedSample_uids (by decide),
    ((packed_lists_decode packedSample (by decide) _ _).2 packedChunks (by decide)).1
      packedSample_chunks |>.1 (by simp [packedChunks])⟩

end Rdwarfs.Guarantees.PackedLists
