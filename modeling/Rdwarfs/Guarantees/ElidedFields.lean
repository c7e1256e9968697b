import Rdwarfs.Source.Metadata.Model

/-!
# Fields left out of the schema

A field whose layout carries no storage is left out, and stands for its default. A list of
defaults then keeps its count, perhaps its distance, and no item layout. The accessors of
integer lists know this form; those of structs and strings insist on an item layout, and the
root scalars on their field.
-/
namespace Rdwarfs.Guarantees.ElidedFields

open Lib.Machine Source Source.Metadata

/-- Where the list of a root field lies: in the field itself, or in a set optional. -/
inductive Located (m : Metadata) (id : Int16) : Layout → Pos → Prop
  | bare {field : Field} {pos : Pos} {layout : Layout}
      (found : m.field id = .ok (some (field, pos)))
      (own : m.schema.layout field.layoutId = .ok layout) : Located m id layout pos
  | wrapped {field : Field} {pos : Pos} {outer inner : Layout} {opt : OptionalView} {value : Int16}
      (found : m.field id = .ok (some (field, pos)))
      (own : m.schema.layout field.layoutId = .ok outer)
      (kind : LayoutKind.of m.schema outer = .ok (.optional (some value)))
      (read : m.frozen.readOptional pos outer = .ok opt) (present : opt.present = true)
      (content : m.schema.layout value = .ok inner) : Located m id inner opt.valuePos

/-- A list of `n` defaults: its range counts them and has no item layout. -/
structure Elided (m : Metadata) (id : Int16) (n : Nat) (layout : Layout) (pos : Pos) : Prop where
  located : Located m id layout pos
  noItem : layout.field 3 = none
  counted : ∃ count countLayout, layout.field 2 = some count ∧
    m.schema.layout count.layoutId = .ok countLayout ∧ countLayout.fields = []
  range : ∃ dataByte, m.frozen.readRange pos layout = .ok ⟨dataByte, n, none⟩
  nonempty : 0 < n

section Kind

variable {schema : Schema} {layout : Layout}

theorem fields_ne_nil {id : Int16} {field : Field} (found : layout.field id = some field) :
    layout.fields.isEmpty = false := by
  cases fields : layout.fields with
  | nil => simp [Layout.field, IdMap.get, fields] at found
  | cons _ _ => rfl

/-- A range without an item layout is a string, or an optional when its distance takes one bit. -/
theorem kind_of_range {count : Field} (counted : layout.field 2 = some count)
    (noItem : layout.field 3 = none) {marks : Bool}
    (marked : LayoutKind.marksOptional schema (layout.field 1) = .ok marks) :
    LayoutKind.of schema layout =
      .ok (if marks then .optional (some count.layoutId) else .string) := by
  simp only [LayoutKind.of, fields_ne_nil counted, Bool.false_eq_true, if_false, marked, ok_bind,
    counted, noItem]
  cases marks <;> simp

theorem kind_of_integral (integral : layout.fields = []) :
    ∃ kind, LayoutKind.of schema layout = .ok kind ∧ (kind = .empty ∨ kind = .integral layout.bits) := by
  simp only [LayoutKind.of, integral, List.isEmpty_nil, if_true]
  split
  · exact ⟨_, rfl, Or.inl rfl⟩
  · exact ⟨_, rfl, Or.inr rfl⟩

end Kind

section Lists

variable {m : Metadata} {id : Int16} {n : Nat} {layout : Layout} {pos : Pos}

/-- Reading a range with elements reads both of its numbers. -/
theorem readRange_eq_ok {dataByte : Nat} {item : Option Int16}
    (read : m.frozen.readRange pos layout = .ok ⟨dataByte, n, item⟩) (nonempty : 0 < n) :
    m.frozen.readRangeField pos (layout.field 2) = .ok n ∧
      ∃ distance, m.frozen.readRangeField pos (layout.field 1) = .ok distance := by
  simp only [Frozen.readRange, bind_eq_ok, pure_eq_ok, Except.ok.injEq, RangeView.mk.injEq] at read
  obtain ⟨count, counted, distance, far, _, _, _, rfl, _⟩ := read
  rw [Frozen.readDistance, if_neg (by omega)] at far
  exact ⟨counted, distance, far⟩

theorem readRangeField_some {field : Field} {value : Nat}
    (read : m.frozen.readRangeField pos (some field) = .ok value) :
    ∃ own at_, m.schema.layout field.layoutId = .ok own ∧ m.frozen.child pos field = .ok at_ ∧
      m.frozen.readIntegral at_ own.bits = .ok value := by
  simp only [Frozen.readRangeField, bind_eq_ok] at read
  obtain ⟨own, found, at_, placed, value⟩ := read
  exact ⟨own, at_, found, placed, value⟩

theorem Elided.marked (elided : Elided m id n layout pos) :
    ∃ marks, LayoutKind.marksOptional m.schema (layout.field 1) = .ok marks := by
  obtain ⟨_, read⟩ := elided.range
  obtain ⟨_, distance, far⟩ := readRange_eq_ok read elided.nonempty
  cases first : layout.field 1 with
  | none => exact ⟨false, rfl⟩
  | some field =>
    rw [first] at far
    obtain ⟨own, _, found, _, _⟩ := readRangeField_some far
    exact ⟨_, by simp only [LayoutKind.marksOptional, found, ok_bind]; rfl⟩

/-- The list is found where it lies, unless it is bare and its distance takes one bit: then it
is taken for an optional, unset or holding the count. -/
theorem Elided.resolved (elided : Elided m id n layout pos) {marks : Bool}
    (marked : LayoutKind.marksOptional m.schema (layout.field 1) = .ok marks) :
    m.resolveList id = .ok (some (layout, pos)) ∨
      (marks = true ∧ (m.resolveList id = .ok none ∨
        ∃ other at_, m.resolveList id = .ok (some (other, at_)) ∧ other.fields = [])) := by
  obtain ⟨count, countLayout, counted, countFound, integral⟩ := elided.counted
  have kind := kind_of_range counted elided.noItem marked
  cases elided.located with
  | @wrapped field at_ outer _ opt value found own optional read present content =>
    refine Or.inl ?_
    simp only [Metadata.resolveList, found, own, optional, read, present, content, ok_bind,
      not_true_eq_false, if_false, pure_eq_ok]
  | @bare field at_ _ found own =>
    cases marks with
    | false =>
      refine Or.inl ?_
      simp only [Metadata.resolveList, found, own, kind, ok_bind, Bool.false_eq_true, if_false,
        pure_eq_ok]
    | true =>
      refine Or.inr ⟨rfl, ?_⟩
      obtain ⟨_, read⟩ := elided.range
      obtain ⟨countRead, distance, far⟩ := readRange_eq_ok read elided.nonempty
      cases first : layout.field 1 with
      | none => simp [first, LayoutKind.marksOptional] at marked
      | some field1 =>
        rw [first] at far marked
        rw [counted] at countRead
        obtain ⟨own1, at1, found1, placed1, read1⟩ := readRangeField_some far
        obtain ⟨_, at2, _, placed2, _⟩ := readRangeField_some countRead
        simp only [LayoutKind.marksOptional, found1, ok_bind, pure_eq_ok, Except.ok.injEq,
          decide_eq_true_eq] at marked
        have bit : readBool m.frozen.arith m.frozen.bytes (at1.absoluteBit m.frozen.arith) =
            .ok (distance ≠ 0) := by
          simp only [Frozen.readIntegral, marked.2] at read1
          simp only [readBool, show readU64 m.frozen.arith m.frozen.bytes
            (at1.absoluteBit m.frozen.arith) 1 = .ok distance from read1, ok_bind, pure_eq_ok]
        have optional : m.frozen.readOptional pos layout =
            .ok ⟨decide (distance ≠ 0), at2, some count.layoutId⟩ := by
          simp only [Frozen.readOptional, first, okOr_some, ok_bind, placed1, bit, counted, placed2,
            pure_eq_ok]
        simp only [Metadata.resolveList, found, own, kind, ok_bind, optional, if_true, countFound]
        by_cases unset : distance = 0
        · exact Or.inl (by simp [unset])
        · exact Or.inr ⟨countLayout, at2, by simp [unset], integral⟩

/-- Nothing that the list resolves to has an item layout. -/
theorem Elided.not_array (elided : Elided m id n layout pos) :
    m.resolveList id = .ok none ∨ ∃ other at_ kind, m.resolveList id = .ok (some (other, at_)) ∧
      LayoutKind.of m.schema other = .ok kind ∧ ∀ item, kind ≠ .array item := by
  obtain ⟨marks, marked⟩ := elided.marked
  rcases elided.resolved marked with here | ⟨_, none_ | ⟨other, at_, there, integral⟩⟩
  · obtain ⟨count, _, counted, _, _⟩ := elided.counted
    refine Or.inr ⟨layout, pos, _, here, kind_of_range counted elided.noItem marked, ?_⟩
    cases marks <;> simp
  · exact Or.inl none_
  · obtain ⟨kind, classified, isIntegral⟩ := @kind_of_integral m.schema _ integral
    refine Or.inr ⟨other, at_, kind, there, classified, fun item => ?_⟩
    rcases isIntegral with rfl | rfl <;> simp

/-- Struct lists: never more than the empty list. -/
theorem Elided.decodeStructList (elided : Elided m id n layout pos) {γ τ : Type}
    {prepare : Layout → Result γ} {decode : γ → Pos → Result τ} {rows : List τ}
    (decoded : m.decodeStructList id prepare decode = .ok rows) : rows = [] := by
  rcases elided.not_array with none_ | ⟨other, at_, kind, resolved, classified, notArray⟩
  · simp only [Metadata.decodeStructList, none_, ok_bind, pure_eq_ok, Except.ok.injEq] at decoded
    exact decoded.symm
  · simp only [Metadata.decodeStructList, resolved, ok_bind, classified] at decoded
    cases kind with
    | array item => exact absurd rfl (notArray item)
    | _ => simp at decoded

theorem Elided.readPlainStringList (elided : Elided m id n layout pos) {table : StringTable}
    (decoded : m.readPlainStringList id = .ok table) : table = .empty := by
  rcases elided.not_array with none_ | ⟨other, at_, kind, resolved, classified, notArray⟩
  · simp only [Metadata.readPlainStringList, none_, ok_bind, pure_eq_ok, Except.ok.injEq] at decoded
    exact decoded.symm
  · simp only [Metadata.readPlainStringList, resolved, ok_bind, classified] at decoded
    cases kind with
    | array item => exact absurd rfl (notArray item)
    | _ => simp at decoded

theorem Elided.readOptionalStringList (elided : Elided m id n layout pos) {name : String}
    {strings : List String} (decoded : m.readOptionalStringList id name = .ok strings) :
    strings = [] := by
  rcases elided.not_array with none_ | ⟨other, at_, kind, resolved, classified, notArray⟩
  · simp only [Metadata.readOptionalStringList, none_, ok_bind, pure_eq_ok, Except.ok.injEq] at decoded
    exact decoded.symm
  · simp only [Metadata.readOptionalStringList, resolved, ok_bind, classified] at decoded
    cases kind with
    | array item => exact absurd rfl (notArray item)
    | _ => simp at decoded

theorem readIntList_none {cap : Nat} (unset : m.resolveList id = .ok none) :
    m.readIntList id cap = .ok [] := by
  unfold Metadata.readIntList
  rw [unset, ok_bind]
  rfl

theorem readIntList_string {cap : Nat} (resolved : m.resolveList id = .ok (some (layout, pos)))
    (kind : LayoutKind.of m.schema layout = .ok .string) :
    m.readIntList id cap = m.readCappedRange pos layout "list-count" cap >>= fun range =>
      .ok (List.replicate range.count 0) := by
  unfold Metadata.readIntList
  rw [resolved, ok_bind]
  dsimp only
  rw [kind, ok_bind]
  rfl

theorem readIntList_other {cap : Nat} {kind : LayoutKind} {values : List Nat}
    (resolved : m.resolveList id = .ok (some (layout, pos)))
    (classified : LayoutKind.of m.schema layout = .ok kind) (notArray : ∀ item, kind ≠ .array item)
    (notString : kind ≠ .string) : m.readIntList id cap ≠ .ok values := by
  unfold Metadata.readIntList
  rw [resolved, ok_bind]
  dsimp only
  rw [classified, ok_bind, Ne, bind_eq_ok]
  rintro ⟨range, _, decoded⟩
  cases kind with
  | array item => exact notArray item rfl
  | string => exact notString rfl
  | _ => cases decoded

/-- Integer lists: the zeros, unless there are too many or the distance takes one bit. -/
theorem Elided.readIntList (elided : Elided m id n layout pos) (cap : Nat) :
    (m.readIntList id cap = .ok (List.replicate n 0) ∧ n ≤ cap ∧
      LayoutKind.marksOptional m.schema (layout.field 1) = .ok false) ∨
    (¬ (n ≤ cap ∧ LayoutKind.marksOptional m.schema (layout.field 1) = .ok false) ∧
      ∀ values, m.readIntList id cap = .ok values → values = []) := by
  obtain ⟨marks, marked⟩ := elided.marked
  obtain ⟨count, _, counted, _, _⟩ := elided.counted
  obtain ⟨dataByte, read⟩ := elided.range
  have kind := kind_of_range counted elided.noItem marked
  cases marks with
  | false =>
    have here : m.resolveList id = .ok (some (layout, pos)) := by
      rcases elided.resolved marked with here | ⟨impossible, _⟩
      · exact here
      · cases impossible
    simp only [Bool.false_eq_true, if_false] at kind
    by_cases many : n ≤ cap
    · refine Or.inl ⟨?_, many, marked⟩
      simp only [readIntList_string here kind, Metadata.readCappedRange, read, ok_bind,
        refuseIf_of_not (Nat.not_lt.mpr many), pure_eq_ok]
    · refine Or.inr ⟨fun both => many both.1, fun values decoded => ?_⟩
      simp only [readIntList_string here kind, Metadata.readCappedRange, read, ok_bind,
        refuseIf_of (Nat.lt_of_not_le many), error_bind, reduceCtorEq] at decoded
  | true =>
    refine Or.inr ⟨fun both => ?_, fun values decoded => ?_⟩
    · rw [marked] at both
      simp at both
    · simp only [if_true] at kind
      rcases elided.resolved marked with here | ⟨_, none_ | ⟨other, at_, there, integral⟩⟩
      · exact absurd decoded (readIntList_other here kind (by simp) (by simp))
      · rw [readIntList_none none_, Except.ok.injEq] at decoded
        exact decoded.symm
      · obtain ⟨kind, classified, isIntegral⟩ := @kind_of_integral m.schema _ integral
        refine absurd decoded (readIntList_other there classified ?_ ?_) <;>
          rcases isIntegral with rfl | rfl <;> simp

/-- An accessor that converts the integers, zero to a zero of its own. -/
theorem Elided.integers_iff (elided : Elided m id n layout pos) {β : Type} (zero : β)
    (finish : List Nat → Result (List β))
    (zeros : ∀ count, finish (List.replicate count 0) = .ok (List.replicate count zero)) :
    (m.readIntList id defaultListCap >>= finish) = .ok (List.replicate n zero) ↔
      n ≤ defaultListCap ∧ LayoutKind.marksOptional m.schema (layout.field 1) = .ok false := by
  rcases elided.readIntList defaultListCap with ⟨read, works⟩ | ⟨fails, short⟩
  · simp only [read, ok_bind, zeros, works, and_self]
  · refine ⟨fun decoded => ?_, fun works => absurd works fails⟩
    obtain ⟨values, read, finished⟩ := bind_eq_ok.mp decoded
    rw [short values read, show ([] : List Nat) = List.replicate 0 0 from rfl, zeros,
      Except.ok.injEq] at finished
    have count := congrArg List.length finished
    simp only [List.length_replicate] at count
    exact absurd count (Nat.ne_of_lt elided.nonempty)

end Lists

section Accessors

/-- The accessors a left-out field may concern. -/
inductive Accessor where
  | totalFsSize
  | timestampBase
  | blockSize
  | integers (id : Int16)
  | words32 (id : Int16)
  | words64 (id : Int16)
  | blockCategories
  | chunks
  | dirEntries
  | inodes
  | directories
  | plainStrings (id : Int16)
  | optionalStrings (id : Int16) (name : String)

/-- What the accessor leaves out: its root field, or the items of a list of `n` defaults. -/
def Omitted (m : Metadata) (n : Nat) (layout : Layout) (pos : Pos) : Accessor → Prop
  | .totalFsSize => m.rootLayout.field Ids.totalFsSize = none
  | .timestampBase => m.rootLayout.field Ids.timestampBase = none
  | .blockSize => m.rootLayout.field Ids.blockSize = none
  | .integers id => Elided m id n layout pos
  | .words32 id => Elided m id n layout pos
  | .words64 id => Elided m id n layout pos
  | .blockCategories => Elided m Ids.blockCategories n layout pos
  | .chunks => Elided m Ids.chunks n layout pos
  | .dirEntries => Elided m Ids.dirEntries n layout pos
  | .inodes => Elided m Ids.inodes n layout pos
  | .directories => Elided m Ids.directories n layout pos
  | .plainStrings id => Elided m id n layout pos
  | .optionalStrings id _ => Elided m id n layout pos

def zeroInode : InodeData := ⟨0, 0, 0, 0, 0, 0, 0, 0, 0, 0, 0, 0⟩

/-- The accessor returns the default, or `n` of them. -/
def ReadsDefault (m : Metadata) (n : Nat) : Accessor → Prop
  | .totalFsSize => m.totalFsSize = .ok 0
  | .timestampBase => m.timestampBase = .ok 0
  | .blockSize => m.blockSize = .ok 0
  | .integers id => m.readIntList id defaultListCap = .ok (List.replicate n 0)
  | .words32 id => m.readU32List id = .ok (List.replicate n 0)
  | .words64 id => m.readU64List id = .ok (List.replicate n 0)
  | .blockCategories => m.blockCategories = .ok (List.replicate n 0)
  | .chunks => m.chunks = .ok (List.replicate n ⟨0, 0, 0⟩)
  | .dirEntries => m.dirEntries = .ok (List.replicate n ⟨0, 0⟩)
  | .inodes => m.inodes = .ok (List.replicate n zeroInode)
  | .directories => m.directories = .ok (List.replicate n ⟨0, 0, 0⟩)
  | .plainStrings id => m.readPlainStringList id = .ok ⟨[], List.replicate (n + 1) 0⟩
  | .optionalStrings id name => m.readOptionalStringList id name = .ok (List.replicate n "")

/-- Only integer lists do, within the cap and when no one-bit distance makes the range look
like an optional. -/
def Recognised (m : Metadata) (n : Nat) (layout : Layout) : Accessor → Prop
  | .integers _ | .words32 _ | .words64 _ | .blockCategories =>
    n ≤ defaultListCap ∧ LayoutKind.marksOptional m.schema (layout.field 1) = .ok false
  | _ => False

theorem readInt_absent {m : Metadata} {id : Int16} (absent : m.rootLayout.field id = none) :
    m.readInt id = fail (Metadata.missingField id) := by
  simp [Metadata.readInt, Metadata.field, absent]

theorem Elided.decodeStructList_ne {m : Metadata} {id : Int16} {n : Nat} {layout : Layout}
    {pos : Pos} (elided : Elided m id n layout pos) {γ τ : Type} {prepare : Layout → Result γ}
    {decode : γ → Pos → Result τ} {row : τ} :
    m.decodeStructList id prepare decode ≠ .ok (List.replicate n row) := by
  intro decoded
  have short := elided.decodeStructList decoded
  rw [List.replicate_eq_nil_iff] at short
  exact absurd short (Nat.ne_of_gt elided.nonempty)

theorem collect_zeros {β : Type} {convert : Nat → Result β} {zero : β}
    (converts : convert 0 = .ok zero) (count : Nat) :
    collect convert (List.replicate count 0) = .ok (List.replicate count zero) := by
  induction count with
  | zero => rfl
  | succ count ih => simp [List.replicate_succ, collect, converts, ih]

/-- A left-out field reads as its default exactly for the integer lists. -/
theorem reads_default_iff (m : Metadata) (n : Nat) (layout : Layout) (pos : Pos)
    (accessor : Accessor) (omitted : Omitted m n layout pos accessor) :
    ReadsDefault m n accessor ↔ Recognised m n layout accessor := by
  cases accessor with
  | totalFsSize =>
    simp [ReadsDefault, Recognised, Metadata.totalFsSize, readInt_absent omitted]
  | timestampBase =>
    simp [ReadsDefault, Recognised, Metadata.timestampBase, readInt_absent omitted]
  | blockSize =>
    simp [ReadsDefault, Recognised, Metadata.blockSize, readInt_absent omitted]
  | integers id =>
    have same := Elided.integers_iff omitted 0 (fun values => .ok values) fun _ => rfl
    rw [ReadsDefault, Recognised, ← same]
    cases m.readIntList id defaultListCap <;> simp
  | words32 id => exact Elided.integers_iff omitted 0 _ (collect_zeros rfl)
  | words64 id =>
    exact Elided.integers_iff omitted 0 _ fun count => by simp [List.map_replicate]
  | blockCategories => exact Elided.integers_iff omitted 0 _ (collect_zeros rfl)
  | chunks => exact iff_of_false (Elided.decodeStructList_ne omitted) id
  | dirEntries => exact iff_of_false (Elided.decodeStructList_ne omitted) id
  | inodes => exact iff_of_false (Elided.decodeStructList_ne omitted) id
  | directories => exact iff_of_false (Elided.decodeStructList_ne omitted) id
  | plainStrings id =>
    refine iff_of_false (fun decoded => ?_) (fun absurd_ => absurd_)
    cases Elided.readPlainStringList omitted decoded
  | optionalStrings id name =>
    refine iff_of_false (fun decoded => ?_) (fun absurd_ => absurd_)
    have short := Elided.readOptionalStringList omitted decoded
    rw [List.replicate_eq_nil_iff] at short
    exact absurd short (Nat.ne_of_gt omitted.nonempty)

/-- A root of two lists, chunks and uids, each of which keeps only a one-byte count. -/
def countedSchema : Bytes := [
  43, 3, 76, 0, 21, 2, 20, 16, 0, 2, 21, 2, 43, 1, 76, 4, 0, 0, 4, 21, 4, 43, 2, 76, 2, 20, 2, 0,
  14, 20, 2, 20, 2, 0, 0, 20, 4, 21, 2, 0]

/-- What the schema parses to, over three chunks and two uids. -/
def counted : Metadata where
  frozen :=
    { arith := .machine .checked
      schema :=
        { fileVersion := 1, relaxTypeChecks := false, rootLayout := 2
          layouts := [(2, ⟨2, 0, [(7, ⟨1, 1⟩), (1, ⟨1, 0⟩)], ""⟩), (1, ⟨1, 0, [(2, ⟨0, 0⟩)], ""⟩),
            (0, ⟨1, 8, [], ""⟩)] }
      bytes := [3, 2] }
  rootLayout := ⟨2, 0, [(7, ⟨1, 1⟩), (1, ⟨1, 0⟩)], ""⟩

theorem counted_uids : Elided counted Ids.uids 2 ⟨1, 0, [(2, ⟨0, 0⟩)], ""⟩ ⟨1, 0⟩ where
  located := .bare (show counted.field 7 = .ok (some (⟨1, 1⟩, ⟨1, 0⟩)) by decide)
    (by decide)
  noItem := by decide
  counted := ⟨⟨0, 0⟩, ⟨1, 8, [], ""⟩, by decide, by decide, rfl⟩
  range := ⟨1, by decide⟩
  nonempty := by decide

theorem reads_default_uids :
    ReadsDefault counted 2 (.words32 Ids.uids) ↔
      Recognised counted 2 ⟨1, 0, [(2, ⟨0, 0⟩)], ""⟩ (.words32 Ids.uids) :=
  reads_default_iff counted 2 _ ⟨1, 0⟩ (.words32 Ids.uids) counted_uids

/-- The same form read as two zero uids, as an error for three zero chunks, and no root field
that reads as zero. -/
theorem reads_default_fails :
    (Schema.parse countedSchema >>= fun schema =>
        Metadata.parse (.machine .checked) schema [3, 2]) = .ok counted ∧
      counted.uids = .ok [0, 0] ∧
      Elided counted Ids.chunks 3 ⟨1, 0, [(2, ⟨0, 0⟩)], ""⟩ ⟨0, 0⟩ ∧
      counted.chunks = fail (Metadata.decodeError "field 1 is not an array (kind=String)") ∧
      Omitted counted 0 Layout.empty ⟨0, 0⟩ .totalFsSize ∧
      counted.totalFsSize = fail (Metadata.missingField 16) := by
  refine ⟨by decide +kernel, by decide +kernel, ?_, by decide +kernel,
    show counted.rootLayout.field Ids.totalFsSize = none by decide, by decide +kernel⟩
  refine ⟨.bare (show counted.field 1 = .ok (some (⟨1, 0⟩, ⟨0, 0⟩)) by decide)
    (by decide), by decide, ?_, ⟨0, by decide⟩, by decide⟩
  exact ⟨⟨0, 0⟩, ⟨1, 8, [], ""⟩, by decide, by decide, rfl⟩

end Accessors

end Rdwarfs.Guarantees.ElidedFields
