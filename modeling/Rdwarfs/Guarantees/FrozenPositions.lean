import Rdwarfs.Guarantees.FrozenArithmetic

/-!
# Positions far from the last word

Root fields, what an optional holds and the fields of a struct found there lie within a few
field offsets of the root, where no addition overflows. What is read at them settles: only
elements of a list can lie anywhere.
-/
namespace Rdwarfs.Guarantees.FrozenPositions

open Lib.Machine Lib.Builds Source Source.Metadata FrozenArithmetic

structure Within (bound : Nat) (pos : Pos) : Prop where
  byte : pos.byte ≤ bound
  bit : pos.bit ≤ bound

/-- The largest step that a field offset takes. -/
def reach : Nat := 2 ^ 15

/-- Bound on the positions from which further fields are read. -/
def clear : Nat := 2 ^ 62

theorem within_root : Within 0 Pos.root := ⟨Nat.le_refl 0, Nat.le_refl 0⟩

theorem Within.mono {bound wider : Nat} {pos : Pos} (within : Within bound pos)
    (le : bound ≤ wider) : Within wider pos :=
  ⟨Nat.le_trans within.byte le, Nat.le_trans within.bit le⟩

section Decoder

variable {frozen : Frozen} {pos : Pos} {bound : Nat}

theorem settles_child (within : Within bound pos) (near : bound ≤ clear) (field : Field) :
    Settles (frozen.child pos field) (Within (bound + reach)) := by
  obtain ⟨byte, bit⟩ := within
  have low := field.offset.le_toInt
  have high := field.offset.toInt_lt
  have limit := wordLimit_eq
  simp only [clear, reach, Frozen.child, Pos.child] at near ⊢
  split
  · rw [Arith.add_of_lt _ (by omega)]
    exact settles_ok ⟨by simp only; omega, by simp only; omega⟩
  · rw [Arith.add_of_lt _ (by omega)]
    exact settles_ok ⟨by simp only; omega, by simp only; omega⟩

/-- Items with a size step the byte, the others the bit. -/
theorem settles_elementPos (range : RangeView) (i : Nat) :
    Settles (frozen.elementPos range i) fun pos => ∀ item layout,
      range.itemLayoutId = some item → frozen.schema.layout item = .ok layout →
        pos.byte = range.dataByte + i * layout.size.toNat ∧ pos.bit ≤ i * layout.bits.toNat := by
  unfold Frozen.elementPos
  cases range.itemLayoutId with
  | none => exact (settles_okOr ..).bind fun _ _ => settles_ok (by simp)
  | some item =>
    refine (settles_okOr ..).bind fun own found => ?_
    have same {layout : Layout} (known : frozen.schema.layout item = .ok layout) : layout = own :=
      Option.some.inj ((okOr_eq_ok.mp known).symm.trans found)
    refine .ite (fun _ => ?_) fun flat => ?_
    · refine (settles_okOr ..).bind fun off timed => ?_
      refine (settles_okOr ..).bind fun byte added => settles_ok fun _ layout equal known => ?_
      cases equal
      rw [same known, checkedAdd_eq_add added, checkedMul_eq_mul timed]
      exact ⟨rfl, Nat.zero_le _⟩
    · refine (settles_okOr ..).bind fun bit timed => settles_ok fun _ layout equal known => ?_
      cases equal
      have unsized : own.size.toNat = 0 := by
        rw [gt_iff_lt, UInt32.lt_iff_toNat_lt] at flat
        simpa using flat
      rw [same known, checkedMul_eq_mul timed, unsized]
      exact ⟨rfl, Nat.le_refl _⟩

variable (short : 8 * frozen.bytes.length < wordLimit)
include short

theorem settles_readIntegral (pos : Pos) (bits : UInt16) :
    Settles (frozen.readIntegral pos bits) fun _ =>
      bits.toNat = 0 ∨ pos.byte * 8 + pos.bit + bits.toNat ≤ 8 * frozen.bytes.length :=
  settles_readBits short pos bits.toNat

theorem settles_readRangeField (within : Within bound pos) (near : bound ≤ clear)
    (field : Option Field) : Settles (frozen.readRangeField pos field) fun _ => True := by
  cases field with
  | none => exact settles_ok trivial
  | some field =>
    refine (settles_okOr ..).bind fun layout _ => ?_
    refine (settles_child within near field).bind fun at_ _ => ?_
    exact (settles_readIntegral short at_ _).mono fun _ _ => trivial

theorem settles_readRange (within : Within bound pos) (near : bound ≤ clear) (layout : Layout) :
    Settles (frozen.readRange pos layout) fun range =>
      pos.byte ≤ range.dataByte ∧ range.itemLayoutId = (layout.field 3).map (·.layoutId) := by
  refine (settles_readRangeField short within near _).bind fun count _ => ?_
  have far : Settles (frozen.readDistance pos layout count) fun _ => True :=
    .ite (fun _ => settles_ok trivial) fun _ => settles_readRangeField short within near _
  refine far.bind fun distance _ => ?_
  refine (settles_okOr ..).bind fun dataByte added => settles_ok ⟨?_, rfl⟩
  rw [checkedAdd_eq_add added]
  exact Nat.le_add_right ..

theorem settles_readOptional (within : Within bound pos) (near : bound ≤ clear) (layout : Layout) :
    Settles (frozen.readOptional pos layout) fun opt => Within (bound + reach) opt.valuePos := by
  refine (settles_okOr ..).bind fun isset _ => ?_
  refine (settles_child within near isset).bind fun at_ _ => ?_
  have bit : Settles (readBool frozen.arith frozen.bytes (at_.absoluteBit frozen.arith))
      fun _ => True :=
    (settles_readU64 short _ 1).bind fun _ _ => settles_ok trivial
  refine bit.bind fun present _ => ?_
  cases layout.field 2 with
  | none => exact settles_ok (within.mono (Nat.le_add_right ..))
  | some value => exact (settles_child within near value).bind fun _ inner => settles_ok inner

/-- A string that can be read starts in the buffer, and so does its range. -/
theorem settles_readStringBytes (within : Within bound pos) (near : bound ≤ clear)
    (layout : Layout) :
    Settles (frozen.readStringBytes pos layout) fun _ => pos.byte ≤ frozen.bytes.length := by
  refine (settles_readRange short within near layout).bind fun range ⟨after, _⟩ => ?_
  refine (settles_okOr ..).bind fun stop added => ?_
  refine (settles_refuseIf ..).bind fun _ inside => ?_
  have ends := checkedAdd_eq_add added
  rw [slice_of_le (by omega) (by omega)]
  exact settles_ok (by omega)

end Decoder

section Kinds

variable (schema : Schema) (layout : Layout)

theorem settles_marksOptional (field : Option Field) :
    Settles (LayoutKind.marksOptional schema field) fun _ => True := by
  cases field with
  | none => exact settles_ok trivial
  | some field => exact (settles_okOr ..).bind fun _ _ => settles_ok trivial

/-- Only a layout with a field 3 is an array, of the items that field names. -/
theorem settles_kind :
    Settles (LayoutKind.of schema layout) fun kind =>
      ∀ item, kind = .array item → (layout.field 3).map (·.layoutId) = some item := by
  unfold LayoutKind.of
  split
  · split <;> exact settles_ok (by simp)
  · refine (settles_marksOptional schema _).bind fun marks _ => ?_
    split
    · exact settles_ok (by simp)
    · cases layout.field 3 with
      | some f3 => exact settles_ok (by simp)
      | none =>
        simp only
        split <;> exact settles_ok (by simp)

end Kinds

section Values

theorem settles_u32Of (value : Nat) (reason : Error) :
    Settles (Metadata.u32Of value reason) fun _ => True := by
  unfold Metadata.u32Of
  split
  · exact settles_ok trivial
  · exact settles_fail ..

theorem settles_slice {bytes : Bytes} {start stop : Nat} (le : start ≤ stop)
    (inside : stop ≤ bytes.length) :
    Settles (slice bytes start stop : Result Bytes) fun _ => True := by
  rw [slice_of_le le inside]
  exact settles_ok trivial

theorem settles_expandSharedFiles (i : Nat) (packed : List UInt32) :
    Settles (expandSharedFiles i packed) fun _ => True := by
  induction packed generalizing i with
  | nil => exact settles_ok trivial
  | cons delta rest ih =>
    refine (settles_okOr ..).bind fun count _ => ?_
    refine (settles_refuseIf ..).bind fun _ _ => ?_
    exact (ih (i + 1)).bind fun _ _ => settles_ok trivial

/-- Every span of a table lies in its symbols. -/
structure WellSpanned (symbols : Bytes) (spans : List (Nat × Nat)) : Prop where
  codes : spans.length = Fsst.numCodes
  inside : ∀ span ∈ spans, span.1 + span.2 ≤ symbols.length

theorem settles_readSymbol (bytes : Bytes) (progress : SymTable.Progress) (symbolLen : Nat)
    (spanned : WellSpanned progress.symbols progress.spans) :
    Settles (SymTable.readSymbol bytes progress symbolLen) fun after =>
      WellSpanned after.symbols after.spans := by
  refine (settles_refuseIf ..).bind fun _ _ => ?_
  refine (settles_okOr ..).bind fun stop added => ?_
  refine (settles_refuseIf ..).bind fun _ inside => ?_
  refine (settles_refuseIf ..).bind fun _ _ => ?_
  have ends := checkedAdd_eq_add added
  rw [slice_of_le (by omega) (by omega)]
  refine settles_ok ⟨by simpa using spanned.codes, fun span member => ?_⟩
  rcases List.mem_or_eq_of_mem_set member with before | rfl
  · have kept := spanned.inside span before
    simp only [List.length_append]
    omega
  · simp only [List.length_append, List.length_take, List.length_drop]
    omega

theorem settles_parse (bytes : Bytes) :
    Settles (SymTable.parse bytes) fun parsed =>
      WellSpanned parsed.1.symbols parsed.1.spans := by
  refine (settles_refuseIf ..).bind fun _ _ => ?_
  refine (settles_refuseIf ..).bind fun _ _ => ?_
  refine (Settles.foldlM ?_ fun progress len _ spanned =>
    settles_readSymbol bytes progress len spanned).bind fun _ spanned => settles_ok spanned
  refine ⟨List.length_replicate, fun span member => ?_⟩
  rw [(List.mem_replicate.mp member).2]
  exact Nat.le_refl 0

theorem settles_symbol {table : SymTable} (spanned : WellSpanned table.symbols table.spans)
    (code : UInt8) : Settles (table.symbol code) fun _ => True := by
  have known : code.toNat < table.spans.length := by
    rw [spanned.codes]
    exact code.toNat_lt
  unfold SymTable.symbol
  rw [index_of_getElem? (List.getElem?_eq_getElem known), ok_bind]
  exact settles_slice (Nat.le_add_right ..) (spanned.inside _ (List.getElem_mem known))

theorem settles_decode {table : SymTable} (spanned : WellSpanned table.symbols table.spans)
    (bytes : Bytes) : Settles (table.decode bytes) fun _ => True := by
  fun_induction table.decode bytes with
  | case1 => exact settles_ok trivial
  | case2 => exact settles_fail ..
  | case3 literal rest ih => exact ih.bind fun _ _ => settles_ok trivial
  | case4 byte rest _ ih =>
    refine (settles_symbol spanned byte).bind fun symbol _ => ?_
    refine (settles_refuseIf ..).bind fun _ _ => ?_
    exact ih.bind fun _ _ => settles_ok trivial

theorem settles_pushString (what : String) (table : StringTable) (bytes : Bytes) :
    Settles (Metadata.pushString what table bytes) fun _ => True :=
  (settles_u32Of ..).bind fun _ _ => settles_ok trivial

theorem settles_parseSymbols (symtab : Option Bytes) :
    Settles (Metadata.parseSymbols symtab) fun table =>
      ∀ symbols, table = some symbols → WellSpanned symbols.symbols symbols.spans := by
  cases symtab with
  | none => exact settles_ok (by simp)
  | some bytes =>
    refine (settles_parse bytes).bind fun parsed spanned => settles_ok fun symbols same => ?_
    cases same
    exact spanned

theorem settles_decompress {table : Option SymTable}
    (spanned : ∀ symbols, table = some symbols → WellSpanned symbols.symbols symbols.spans)
    (window : Bytes) : Settles (Metadata.decompress table window) fun _ => True := by
  cases table with
  | none => exact settles_ok trivial
  | some symbols => exact settles_decode (spanned symbols rfl) window

theorem settles_decodeStringTable (buffer : Bytes) (symtab : Option Bytes) (index : List UInt32)
    (packed : Bool) : Settles (Metadata.decodeStringTable buffer symtab index packed) fun _ => True := by
  refine .ite (fun _ => settles_ok trivial) fun _ => ?_
  refine (settles_parseSymbols symtab).bind fun table spanned => ?_
  refine Settles.foldlM trivial fun out span _ _ => ?_
  refine (settles_refuseIf ..).bind fun _ inside => ?_
  refine (settles_slice (by omega) (by omega)).bind fun window _ => ?_
  exact (settles_decompress spanned window).bind fun _ _ => settles_pushString ..

end Values

end Rdwarfs.Guarantees.FrozenPositions
