import Rdwarfs.Guarantees.NearAccessors

/-!
# Lists whose elements lie past the last word

The elements of a list start at a distance that the image chooses. `Pos::child` adds a field's
offset to it plainly, so that a struct or a string close below `2 ^ 64` overruns the word. Where
the list lies does not depend on the arithmetic, so that unbounded numbers say which do.
-/
namespace Rdwarfs.Guarantees.ListOverruns

open Lib.Machine Lib.Builds Source Source.Metadata FrozenArithmetic FrozenPositions NearAccessors

section Definitions

/-- A root list: its range and the layout of its items. -/
def Listed (m : Metadata) (id : Int16) (range : RangeView) (itemLayout : Layout) : Prop :=
  ∃ layout pos item, m.resolveList id = .ok (some (layout, pos)) ∧
    LayoutKind.of m.schema layout = .ok (.array item) ∧
    m.frozen.readRange pos layout = .ok range ∧ range.count ≤ defaultListCap ∧
    m.schema.layout item = .ok itemLayout

/-- Byte at which element `i` starts. -/
def elementStart (range : RangeView) (itemLayout : Layout) (i : Nat) : Nat :=
  range.dataByte + i * itemLayout.size.toNat

/-- The byte offset of a field carries a position past the last word. -/
def Carries (start : Nat) (field : Field) : Prop :=
  0 ≤ field.offset.toInt ∧ wordLimit ≤ start + field.offset.toInt.toNat

/-- Nothing is read for the column. -/
def Hollow (column : Column) : Prop := column.field = none ∨ column.bits = 0

def ColumnCarries (start : Nat) (column : Column) : Prop :=
  ∃ field, column.field = some field ∧ Carries start field

/-- The first column that is read, or one before it, carries. -/
def Overflows (start : Nat) : List Column → Prop
  | [] => False
  | column :: rest => ColumnCarries start column ∨ (Hollow column ∧ Overflows start rest)

/-- An element whose columns overflow. Only when no column is read are elements after it
reached. -/
def StructOverrun (m : Metadata) (id : Int16) (fieldIds : List Int16) : Prop :=
  ∃ range itemLayout columns i, Listed m id range itemLayout ∧
    collect (m.column itemLayout) fieldIds = .ok columns ∧ i < range.count ∧
    elementStart range itemLayout i < wordLimit ∧
    Overflows (elementStart range itemLayout i) columns ∧ (i = 0 ∨ ∀ column ∈ columns, Hollow column)

/-- The field that counts the bytes of a string carries. -/
def CountCarries (m : Metadata) (start : Nat) (layout : Layout) : Prop :=
  ∃ field own, layout.field 2 = some field ∧ m.schema.layout field.layoutId = .ok own ∧
    Carries start field

/-- A first string whose count field carries. -/
def StringOverrun (m : Metadata) (id : Int16) : Prop :=
  ∃ range itemLayout, Listed m id range itemLayout ∧ range.dataByte < wordLimit ∧
    0 < range.count ∧ CountCarries m range.dataByte itemLayout

end Definitions

section Near

/-- Bound on the positions whose bit offset is a word in every arithmetic. -/
def nearby : Nat := 2 ^ 32

variable {m : Metadata} {pos : Pos} {bound : Nat}

theorem fixed_child (within : Within bound pos) (near : bound ≤ nearby) (field : Field) :
    Fixed fun arith => (metadataIn m arith).frozen.child pos field := by
  obtain ⟨byte, bit⟩ := within
  have low := field.offset.le_toInt
  have high := field.offset.toInt_lt
  have limit := wordLimit_eq
  simp only [nearby] at near
  unfold Frozen.child Pos.child
  refine .ite ?_ ?_ <;> exact (fixed_add (by omega)).bind fun _ _ _ => rfl

theorem fixed_field (id : Int16) : Fixed fun arith => (metadataIn m arith).field id := by
  unfold Metadata.field
  simp only [metadataIn]
  cases m.rootLayout.field id with
  | none => exact fun _ => rfl
  | some field => exact (fixed_child within_root (by decide) field).bind fun _ _ _ => rfl

variable (short : 8 * m.frozen.bytes.length < wordLimit)
include short

theorem fixed_readBits (within : Within bound pos) (near : bound ≤ nearby) {bits : Nat}
    (few : bits < 2 ^ 16) :
    Fixed fun arith => readU64 arith m.frozen.bytes (pos.absoluteBit arith) bits := by
  obtain ⟨byte, bit⟩ := within
  have limit := wordLimit_eq
  simp only [nearby] at near
  simp only [absoluteBit_of_lt (show pos.byte * 8 + pos.bit < wordLimit by omega)]
  unfold readU64
  refine .ite (fun _ => rfl) (.bind (fun _ => rfl) fun _ _ => ?_)
  refine (fixed_checkedAdd (by omega) _).bind fun _ _ => ?_
  exact .bind (fun arith => by rw [bitLen_eq arith short, bitLen_eq _ short]) fun _ _ _ => rfl

theorem fixed_readIntegral (within : Within bound pos) (near : bound ≤ nearby) (bits : UInt16) :
    Fixed fun arith => (metadataIn m arith).frozen.readIntegral pos bits :=
  fixed_readBits short within near bits.toNat_lt

theorem fixed_readRangeField (within : Within bound pos) (near : bound + reach ≤ nearby)
    (field : Option Field) :
    Fixed fun arith => (metadataIn m arith).frozen.readRangeField pos field := by
  cases field with
  | none => exact fun _ => rfl
  | some field =>
    have low : bound ≤ nearby := Nat.le_of_add_right_le near
    refine .bind (fun _ => rfl) fun layout _ => ?_
    refine (fixed_child within low field).bind fun at_ placed => ?_
    have inner := (settles_child within (Nat.le_trans low (by decide)) field).2 at_ placed
    exact fixed_readIntegral short inner near layout.bits

theorem fixed_readOptional (within : Within bound pos) (near : bound + reach ≤ nearby)
    (layout : Layout) : Fixed fun arith => (metadataIn m arith).frozen.readOptional pos layout := by
  have low : bound ≤ nearby := Nat.le_of_add_right_le near
  refine .bind (fun _ => rfl) fun isset _ => ?_
  refine (fixed_child within low isset).bind fun at_ placed => ?_
  have inner := (settles_child within (Nat.le_trans low (by decide)) isset).2 at_ placed
  have bit := fixed_readBits short inner near (show 1 < 2 ^ 16 by decide)
  refine .bind (.bind bit fun _ _ _ => rfl) fun present _ => ?_
  cases layout.field 2 with
  | none => exact fun _ => rfl
  | some value => exact (fixed_child within low value).bind fun _ _ _ => rfl

theorem fixed_resolveList (id : Int16) :
    Fixed fun arith => (metadataIn m arith).resolveList id := by
  refine (fixed_field id).bind fun view found => ?_
  rcases view with _ | ⟨field, pos⟩
  · exact fun _ => rfl
  have within := ((sound_field id).settles _).2 _ found field pos rfl
  refine .bind (fun _ => rfl) fun outer _ => ?_
  refine .bind (fun _ => rfl) fun kind _ => ?_
  cases kind with
  | optional value =>
    refine (fixed_readOptional short within (by decide) outer).bind fun opt _ => ?_
    refine .ite (fun _ => rfl) ?_
    cases value <;> exact fun _ => rfl
  | _ => exact fun _ => rfl

/-- A range that starts below the last word is the same range in every arithmetic. -/
theorem readRange_in {range : RangeView} {layout : Layout} (within : Within bound pos)
    (near : bound + reach ≤ nearby)
    (read : (metadataIn m .exact).frozen.readRange pos layout = .ok range)
    (fits : range.dataByte < wordLimit) (arith : Arith) :
    (metadataIn m arith).frozen.readRange pos layout = .ok range := by
  have counts := fixed_readRangeField short within near (layout.field 2) arith
  have distances := fixed_readRangeField short within near (layout.field 1) arith
  simp only at counts distances
  simp only [Frozen.readRange, Frozen.readDistance, counts, distances, bind_eq_ok, okOr_eq_ok] at read ⊢
  obtain ⟨count, counted, distance, far, dataByte, added, same⟩ := read
  have placed : dataByte < wordLimit := by
    cases same
    exact fits
  refine ⟨count, counted, distance, far, dataByte, ?_, same⟩
  have sum := checkedAdd_eq_add added
  cases arith with
  | exact => exact added
  | machine build =>
    subst sum
    exact if_pos placed

end Near

section Items

variable {m : Metadata}

/-- What the accessors of struct and string lists share: find the list, then decode its items. -/
def overItems {τ : Type} (m : Metadata) (id : Int16) (what : String) (none_ : τ)
    (wrong : LayoutKind → Error) (body : RangeView → Layout → Result τ) : Result τ := do
  match ← m.resolveList id with
  | none => return none_
  | some (listLayout, listPos) =>
    match ← LayoutKind.of m.schema listLayout with
    | .array itemLayoutId =>
      let range ← m.readCappedRange listPos listLayout what defaultListCap
      let itemLayout ← m.schema.layout itemLayoutId
      body range itemLayout
    | kind => fail (wrong kind)

/-- A listed range names the layout of its items, and they are few. -/
theorem Listed.item {id : Int16} {range : RangeView} {itemLayout : Layout} {arith : Arith}
    (listed : Listed (metadataIn m arith) id range itemLayout) :
    ∃ item, range.itemLayoutId = some item ∧ m.schema.layout item = .ok itemLayout ∧
      range.count ≤ defaultListCap := by
  obtain ⟨layout, pos, item, _, kind, read, few, own⟩ := listed
  refine ⟨item, ?_, own, few⟩
  have named := (settles_kind ..).2 _ kind item rfl
  simp only [Frozen.readRange, bind_eq_ok, pure_eq_ok, Except.ok.injEq] at read
  obtain ⟨_, _, _, _, _, _, rfl⟩ := read
  exact named

/-- A listed range is decoded, whichever accessor asks for it. -/
theorem overItems_of_listed {τ : Type} {id : Int16} {range : RangeView} {itemLayout : Layout}
    (listed : Listed m id range itemLayout) (what : String) (none_ : τ)
    (wrong : LayoutKind → Error) (body : RangeView → Layout → Result τ) :
    overItems m id what none_ wrong body = body range itemLayout := by
  obtain ⟨layout, pos, item, located, classified, read, few, own⟩ := listed
  simp only [overItems, located, classified, Metadata.readCappedRange, read,
    refuseIf_of_not (Nat.not_lt.mpr few), own, ok_bind, pure_eq_ok]

theorem decodeStructList_eq {γ τ : Type} (m : Metadata) (id : Int16) (prepare : Layout → Result γ)
    (decode : γ → Pos → Result τ) :
    m.decodeStructList id prepare decode =
      overItems m id "list-count" [] (fun kind =>
        Metadata.decodeError s!"field {id} is not an array (kind={kind.debug})")
        fun range itemLayout => prepare itemLayout >>= fun columns =>
          collect (fun i => m.frozen.elementPos range i >>= decode columns)
            (List.range range.count) := rfl

variable (short : 8 * m.frozen.bytes.length < wordLimit)
include short

theorem Listed.below {id : Int16} {range : RangeView} {itemLayout : Layout}
    (listed : Listed (metadataIn m .exact) id range itemLayout) (fits : range.dataByte < wordLimit) :
    Listed (metadataIn m (.machine .checked)) id range itemLayout := by
  obtain ⟨layout, pos, item, resolved, kind, read, few, own⟩ := listed
  have within := ((sound_resolveList short id).settles _).2 _ resolved layout pos rfl
  exact ⟨layout, pos, item, (fixed_resolveList short id _).trans resolved, kind,
    readRange_in short within (by decide) read fits _, few, own⟩

theorem Listed.exact {id : Int16} {range : RangeView} {itemLayout : Layout}
    (listed : Listed (metadataIn m (.machine .checked)) id range itemLayout) :
    Listed (metadataIn m .exact) id range itemLayout ∧ range.dataByte < wordLimit := by
  obtain ⟨layout, pos, item, resolved, kind, read, few, own⟩ := listed
  have within := ((sound_resolveList short id).settles _).2 _ resolved layout pos rfl
  have tracks := tracks_readRange m.frozen pos layout
  have calm := settles_readRange (short_in short (.machine .checked)) within (by decide) layout
  refine ⟨⟨layout, pos, item, (fixed_resolveList short id _).symm.trans resolved, kind,
    (tracks.resolve_left calm.1).2 _ read, few, own⟩, ?_⟩
  simp only [Frozen.readRange, bind_eq_ok, okOr_eq_ok, pure_eq_ok, Except.ok.injEq] at read
  obtain ⟨_, _, _, _, dataByte, added, rfl⟩ := read
  change (Arith.machine .checked).checkedAdd _ _ = _ at added
  exact checkedAddWord_eq_some.mp added |>.2 ▸ (checkedAddWord_eq_some.mp added).1

theorem tracks_overItems {τ : Type} {id : Int16} {what : String} {none_ : τ}
    {wrong : LayoutKind → Error} {body : Arith → RangeView → Layout → Result τ}
    (each : ∀ range itemLayout, Tracks fun arith => body arith range itemLayout) :
    Tracks fun arith => overItems (metadataIn m arith) id what none_ wrong (body arith) := by
  refine (sound_resolveList short id).tracks.bind fun resolved => ?_
  rcases resolved with _ | ⟨layout, pos⟩
  · exact .of_constant fun _ => rfl
  refine .bind (.of_constant fun _ => rfl) fun kind => ?_
  cases kind with
  | array item =>
    refine .bind ((tracks_readRange m.frozen pos layout).bind fun _ => .of_constant fun _ => rfl)
      fun range => ?_
    exact .bind (.of_constant fun _ => rfl) fun itemLayout => each range itemLayout
  | _ => exact .of_constant fun _ => rfl

/-- Finding the list does not panic, so that its items must. -/
theorem overItems_eq_panicked {τ : Type} {id : Int16} {what : String} {none_ : τ}
    {wrong : LayoutKind → Error} {body : RangeView → Layout → Result τ} :
    overItems (metadataIn m (.machine .checked)) id what none_ wrong body = panicked ↔
      ∃ range itemLayout, Listed (metadataIn m .exact) id range itemLayout ∧
        range.dataByte < wordLimit ∧ body range itemLayout = panicked := by
  have found := (sound_resolveList short id).settles (.machine .checked)
  constructor
  · intro stopped
    unfold overItems at stopped
    rcases bind_eq_panicked.mp stopped with early | ⟨resolved, located, stopped⟩
    · exact absurd early found.1
    rcases resolved with _ | ⟨layout, pos⟩
    · cases stopped
    rcases bind_eq_panicked.mp stopped with early | ⟨kind, classified, stopped⟩
    · exact absurd early (settles_kind ..).1
    cases kind with
    | array item =>
      have within := found.2 _ located layout pos rfl
      have capped := (sound_readCappedRange short within (by decide) layout what
        defaultListCap).settles (.machine .checked)
      rcases bind_eq_panicked.mp stopped with early | ⟨range, read, stopped⟩
      · exact absurd early capped.1
      rcases bind_eq_panicked.mp stopped with early | ⟨itemLayout, own, stopped⟩
      · exact absurd early (settles_okOr ..).1
      simp only [Metadata.readCappedRange, bind_eq_ok, refuseIf_eq_ok, pure_eq_ok,
        Except.ok.injEq] at read
      obtain ⟨view, read, _, few, rfl⟩ := read
      have listed : Listed (metadataIn m (.machine .checked)) id view itemLayout :=
        ⟨layout, pos, item, located, classified, read, Nat.le_of_not_lt few, own⟩
      exact ⟨view, itemLayout, (listed.exact short).1, (listed.exact short).2, stopped⟩
    | _ => cases stopped
  · rintro ⟨range, itemLayout, listed, fits, stopped⟩
    rw [overItems_of_listed (listed.below short fits), stopped]

end Items

section Elements

variable {m : Metadata} {range : RangeView} {itemLayout : Layout} {item : Int16}

/-- The elements of a capped list are placed where their starts say, or refused. -/
theorem elementPos_checked (named : range.itemLayoutId = some item)
    (own : m.schema.layout item = .ok itemLayout) (fits : range.dataByte < wordLimit) {i : Nat}
    (few : i ≤ defaultListCap) :
    (elementStart range itemLayout i < wordLimit ∧ ∃ pos : Pos,
      pos.byte = elementStart range itemLayout i ∧ pos.bit ≤ clear ∧
      (metadataIn m (.machine .checked)).frozen.elementPos range i = .ok pos) ∨
    (wordLimit ≤ elementStart range itemLayout i ∧ ∃ reason,
      (metadataIn m (.machine .checked)).frozen.elementPos range i = fail reason) := by
  have size := itemLayout.size.toNat_lt
  have width := itemLayout.bits.toNat_lt
  have step : i * itemLayout.size.toNat ≤ defaultListCap * 2 ^ 32 :=
    Nat.mul_le_mul few (Nat.le_of_lt size)
  have bitStep : i * itemLayout.bits.toNat ≤ defaultListCap * 2 ^ 16 :=
    Nat.mul_le_mul few (Nat.le_of_lt width)
  simp only [defaultListCap] at step bitStep
  have limit := wordLimit_eq
  have known : (metadataIn m (.machine .checked)).frozen.schema.layout item = .ok itemLayout := own
  have times {x : Nat} (small : i * x < wordLimit) (reason : Error) :
      okOr ((metadataIn m (.machine .checked)).frozen.arith.checkedMul i x) reason = .ok (i * x) :=
    okOr_eq_ok.mpr (if_pos small)
  have bytes := times (show i * itemLayout.size.toNat < wordLimit by omega)
  have bits := times (show i * itemLayout.bits.toNat < wordLimit by omega)
  simp only [Frozen.elementPos, named, known, ok_bind, bytes, bits]
  by_cases sized : itemLayout.size > 0
  · simp only [if_pos sized]
    by_cases inside : elementStart range itemLayout i < wordLimit
    · refine Or.inl ⟨inside, ⟨elementStart range itemLayout i, 0⟩, rfl, Nat.zero_le _, ?_⟩
      have added : (metadataIn m (.machine .checked)).frozen.arith.checkedAdd range.dataByte
          (i * itemLayout.size.toNat) = some (elementStart range itemLayout i) := if_pos inside
      simp only [added, okOr_some, ok_bind, pure_eq_ok]
    · refine Or.inr ⟨Nat.le_of_not_lt inside,
        Frozen.decodeError "array element byte offset overflow", ?_⟩
      have refused : (metadataIn m (.machine .checked)).frozen.arith.checkedAdd range.dataByte
          (i * itemLayout.size.toNat) = none := if_neg inside
      simp only [refused, okOr_none, error_bind]
  · have flat : elementStart range itemLayout i = range.dataByte := by
      rw [gt_iff_lt, UInt32.lt_iff_toNat_lt] at sized
      simp [elementStart, show itemLayout.size.toNat = 0 by simpa using sized]
    simp only [if_neg sized, flat]
    refine Or.inl ⟨fits, ⟨range.dataByte, i * itemLayout.bits.toNat⟩, rfl, ?_, rfl⟩
    simp only [clear]
    omega

variable {pos : Pos} (low : pos.bit ≤ clear)
include low

/-- A plain addition panics exactly where the field carries. -/
theorem child_checked (field : Field) :
    (Carries pos.byte field ∧
      (metadataIn m (.machine .checked)).frozen.child pos field = panicked) ∨
    (¬ Carries pos.byte field ∧ ∃ at_, pos.byte ≤ at_.byte ∧
      (metadataIn m (.machine .checked)).frozen.child pos field = .ok at_) := by
  have offset := field.offset.le_toInt
  have limit := wordLimit_eq
  simp only [clear] at low
  unfold Frozen.child Pos.child Carries
  by_cases back : field.offset.toInt < 0
  · refine Or.inr ⟨by omega, ⟨pos.byte, pos.bit + (-field.offset.toInt).toNat⟩, Nat.le_refl _, ?_⟩
    rw [if_pos back, Arith.add_of_lt _ (by omega)]
    rfl
  · rw [if_neg back]
    by_cases overrun : wordLimit ≤ pos.byte + field.offset.toInt.toNat
    · refine Or.inl ⟨⟨by omega, overrun⟩, ?_⟩
      rw [show (metadataIn m (.machine .checked)).frozen.arith = .machine .checked from rfl,
        Arith.add_checked_eq_panicked.mpr overrun]
      rfl
    · refine Or.inr ⟨by omega, ⟨pos.byte + field.offset.toInt.toNat, pos.bit⟩, by simp, ?_⟩
      rw [Arith.add_of_lt _ (by omega)]
      rfl

variable (short : 8 * m.frozen.bytes.length < wordLimit)
include short

/-- A field that is read lies in the buffer, and so does what holds it. -/
theorem readField_checked (field : Field) (bits : UInt16) :
    (Carries pos.byte field ∧ ((metadataIn m (.machine .checked)).frozen.child pos field >>= fun at_ =>
      (metadataIn m (.machine .checked)).frozen.readIntegral at_ bits) = panicked) ∨
    (¬ Carries pos.byte field ∧
      Settles ((metadataIn m (.machine .checked)).frozen.child pos field >>= fun at_ =>
        (metadataIn m (.machine .checked)).frozen.readIntegral at_ bits) fun value =>
          (bits = 0 ∧ value = 0) ∨ pos.byte ≤ m.frozen.bytes.length) := by
  rcases child_checked low field with ⟨carries, stopped⟩ | ⟨stays, at_, after, placed⟩
  · exact Or.inl ⟨carries, by rw [stopped, error_bind]⟩
  · refine Or.inr ⟨stays, ?_⟩
    rw [placed, ok_bind]
    by_cases none_ : bits = 0
    · subst none_
      exact settles_ok (Or.inl ⟨rfl, rfl⟩)
    · refine (settles_readIntegral (short_in short _) at_ bits).mono fun _ inside => Or.inr ?_
      have width : bits.toNat ≠ 0 := fun zero => none_ (UInt16.toNat_inj.mp zero)
      have inside := inside.resolve_left width
      simp only [frozenIn] at inside
      omega

end Elements

section Rows

variable {m : Metadata} {τ : Type}

/-- A decoder that reads columns in order, each refused or finished without a panic. -/
inductive Reads (m : Metadata) {τ : Type} : List Column → (Pos → Result τ) → Prop
  | done (value : τ) : Reads m [] fun _ => .ok value
  | column {β : Type} {column : Column} {columns : List Column} {finish : Nat → Result β}
      {next : β → Pos → Result τ} (calm : ∀ value, finish value ≠ panicked)
      (zero : ∃ value, finish 0 = .ok value) (rest : ∀ value, Reads m columns (next value)) :
      Reads m (column :: columns) fun pos =>
        (m.readColumn pos column >>= finish) >>= fun value => next value pos

theorem Reads.u32 {column : Column} {columns : List Column} {next : UInt32 → Pos → Result τ}
    (rest : ∀ value, Reads m columns (next value)) :
    Reads m (column :: columns) fun pos => m.readColumnU32 pos column >>= fun value =>
      next value pos :=
  .column (fun _ => (settles_u32Of ..).1) ⟨0, rfl⟩ rest

theorem Reads.u64 {column : Column} {columns : List Column} {next : UInt64 → Pos → Result τ}
    (rest : ∀ value, Reads m columns (next value)) :
    Reads m (column :: columns) fun pos => m.readColumnU64 pos column >>= fun value =>
      next value pos :=
  .column (fun _ => by simp) ⟨0, rfl⟩ rest

theorem Overflows.high {start : Nat} {columns : List Column} (overflows : Overflows start columns) :
    wordLimit ≤ start + reach := by
  induction columns with
  | nil => exact overflows.elim
  | cons column rest ih =>
    rcases overflows with ⟨field, _, _, beyond⟩ | ⟨_, later⟩
    · have offset := field.offset.toInt_lt
      simp only [reach]
      omega
    · exact ih later

variable {pos : Pos} (low : pos.bit ≤ clear)
include low

theorem readColumn_hollow {column : Column} (hollow : Hollow column)
    (stays : ¬ ColumnCarries pos.byte column) :
    (metadataIn m (.machine .checked)).readColumn pos column = .ok 0 := by
  unfold Metadata.readColumn
  cases found : column.field with
  | none => rfl
  | some field =>
    rcases child_checked (m := m) low field with ⟨carries, _⟩ | ⟨_, at_, _, placed⟩
    · exact absurd ⟨field, found, carries⟩ stays
    · rcases hollow with absent | flat
      · simp [absent] at found
      · simp only [placed, ok_bind, flat]
        rfl

variable (short : 8 * m.frozen.bytes.length < wordLimit)
include short

theorem readColumn_checked (column : Column) :
    (ColumnCarries pos.byte column ∧
      (metadataIn m (.machine .checked)).readColumn pos column = panicked) ∨
    (¬ ColumnCarries pos.byte column ∧
      Settles ((metadataIn m (.machine .checked)).readColumn pos column) fun _ =>
        Hollow column ∨ pos.byte ≤ m.frozen.bytes.length) := by
  unfold Metadata.readColumn
  cases found : column.field with
  | none => exact Or.inr ⟨by simp [ColumnCarries, found], settles_ok (Or.inl (Or.inl found))⟩
  | some field =>
    rcases readField_checked low short field column.bits with ⟨carries, stopped⟩ | ⟨stays, settles⟩
    · exact Or.inl ⟨⟨field, found, carries⟩, stopped⟩
    · refine Or.inr ⟨?_, settles.mono fun _ => Or.imp_left fun flat => Or.inr flat.1⟩
      rintro ⟨other, same, carries⟩
      rw [found, Option.some.injEq] at same
      exact stays (same ▸ carries)

/-- A row panics where its columns overflow; a row that reads a column lies in the buffer. -/
theorem Reads.checked {columns : List Column} {decode : Pos → Result τ}
    (reads : Reads (metadataIn m (.machine .checked)) columns decode) :
    (Overflows pos.byte columns ∧ decode pos = panicked) ∨
    (¬ Overflows pos.byte columns ∧ Settles (decode pos) fun _ =>
      (∀ column ∈ columns, Hollow column) ∨ pos.byte ≤ m.frozen.bytes.length) := by
  induction reads with
  | done value => exact Or.inr ⟨id, settles_ok (Or.inl (by simp))⟩
  | @column β column columns finish next calm zero rest ih =>
    rcases readColumn_checked low short column with ⟨carries, stopped⟩ | ⟨stays, settles⟩
    · exact Or.inl ⟨Or.inl carries, by simp only [stopped, error_bind]⟩
    have finishes (value : Nat) : Settles (finish value) fun _ => True :=
      ⟨calm value, fun _ _ => trivial⟩
    by_cases later : Overflows pos.byte columns
    · by_cases hollow : Hollow column
      · refine Or.inl ⟨Or.inr ⟨hollow, later⟩, ?_⟩
        obtain ⟨first, finished⟩ := zero
        simp only [readColumn_hollow low hollow stays, ok_bind, finished]
        exact ((ih first).resolve_right fun other => other.1 later).2
      · refine Or.inr ⟨fun overflows => overflows.elim stays fun both => hollow both.1, ?_⟩
        refine ((settles.bind fun value read => (finishes value).mono fun _ _ => read).bind
          fun _ read => ?_)
        have limit := wordLimit_eq
        have high := later.high
        simp only [reach] at high
        have buffered := read.resolve_left hollow
        omega
    · refine Or.inr ⟨fun overflows => overflows.elim stays fun both => later both.2, ?_⟩
      refine ((settles.bind fun value read => (finishes value).mono fun _ _ => read).bind
        fun value read => ?_)
      refine ((ih value).resolve_left fun other => later other.1).2.mono fun _ others => ?_
      rcases read with hollow | inside
      · exact others.imp_left fun all => by simpa using ⟨hollow, all⟩
      · exact Or.inr inside

omit short in
theorem Reads.hollow {columns : List Column} {decode : Pos → Result τ}
    (reads : Reads (metadataIn m (.machine .checked)) columns decode)
    (hollow : ∀ column ∈ columns, Hollow column) (stays : ¬ Overflows pos.byte columns) :
    ∃ value, decode pos = .ok value := by
  induction reads with
  | done value => exact ⟨value, rfl⟩
  | @column β column columns finish next calm zero rest ih =>
    obtain ⟨first, finished⟩ := zero
    have here := hollow column (by simp)
    simp only [readColumn_hollow low here fun carries => stays (Or.inl carries), ok_bind, finished]
    exact ih first (fun other member => hollow other (by simp [member]))
      fun later => stays (Or.inr ⟨here, later⟩)

end Rows

section StructLists

variable {m : Metadata}

theorem settles_columns (layout : Layout) (fieldIds : List Int16) :
    Settles (collect (m.column layout) fieldIds) fun _ => True := by
  refine .collect fun id _ => ?_
  unfold Metadata.column
  cases layout.field id with
  | none => exact settles_ok trivial
  | some field => exact (settles_okOr ..).bind fun _ _ => settles_ok trivial

variable (short : 8 * m.frozen.bytes.length < wordLimit)
include short

/-- The elements of a list of structs: the first whose columns overflow ends it. -/
theorem rows_eq_panicked {τ : Type} {range : RangeView} {itemLayout : Layout} {item : Int16}
    (named : range.itemLayoutId = some item) (own : m.schema.layout item = .ok itemLayout)
    (few : range.count ≤ defaultListCap) (fits : range.dataByte < wordLimit)
    {columns : List Column} {decode : Pos → Result τ}
    (reads : Reads (metadataIn m (.machine .checked)) columns decode) :
    collect (fun i => (metadataIn m (.machine .checked)).frozen.elementPos range i >>= decode)
      (List.range range.count) = panicked ↔
      ∃ i < range.count, elementStart range itemLayout i < wordLimit ∧
        Overflows (elementStart range itemLayout i) columns ∧
        (i = 0 ∨ ∀ column ∈ columns, Hollow column) := by
  have size := itemLayout.size.toNat_lt
  have limit := wordLimit_eq
  rw [collect_range_eq_panicked]
  constructor
  · rintro ⟨i, below, earlier, stopped⟩
    rcases elementPos_checked named own fits (show i ≤ defaultListCap by omega) with
      ⟨inside, pos, starts, low, placed⟩ | ⟨_, reason, refused⟩
    · rw [placed, ok_bind] at stopped
      have overrun := ((reads.checked low short).resolve_right fun other => other.2.1 stopped).1
      rw [starts] at overrun
      refine ⟨i, below, inside, overrun, ?_⟩
      rcases Nat.eq_zero_or_pos i with first | later
      · exact Or.inl first
      · obtain ⟨row, read⟩ := earlier 0 later
        rcases elementPos_checked named own fits (Nat.zero_le defaultListCap) with
          ⟨_, pos, starts, low, placed⟩ | ⟨_, reason, refused⟩
        · rw [placed, ok_bind] at read
          rcases reads.checked low short with ⟨_, stopped⟩ | ⟨_, settles⟩
          · rw [stopped] at read
            cases read
          · refine Or.inr ((settles.2 row read).resolve_right fun buffered => ?_)
            -- a row in the buffer leaves the others too far from the last word to overflow
            have step : i * itemLayout.size.toNat ≤ defaultListCap * 2 ^ 32 :=
              Nat.mul_le_mul (by omega) (Nat.le_of_lt size)
            have high := overrun.high
            simp only [elementStart, defaultListCap, reach, Nat.zero_mul] at *
            omega
        · rw [refused] at read
          cases read
    · rw [refused] at stopped
      cases stopped
  · rintro ⟨i, below, inside, overrun, reached⟩
    -- the first element that overflows: those before it hold nothing and return
    induction i using Nat.strongRecOn with
    | ind i smaller =>
    have sooner_le {j : Nat} (before : j < i) :
        elementStart range itemLayout j ≤ elementStart range itemLayout i :=
      Nat.add_le_add_left (Nat.mul_le_mul_right _ (Nat.le_of_lt before)) _
    by_cases sooner : ∃ j < i, Overflows (elementStart range itemLayout j) columns
    · obtain ⟨j, before, overEarlier⟩ := sooner
      exact smaller j before (by omega) (Nat.lt_of_le_of_lt (sooner_le before) inside) overEarlier
        (Or.inr (reached.resolve_left (by omega)))
    · refine ⟨i, below, fun j before => ?_, ?_⟩
      · have within := Nat.lt_of_le_of_lt (sooner_le before) inside
        rcases elementPos_checked named own fits (show j ≤ defaultListCap by omega) with
          ⟨_, pos, starts, low, placed⟩ | ⟨beyond, _⟩
        · rw [placed, ok_bind]
          refine reads.hollow low (reached.resolve_left (by omega)) fun overEarlier => sooner ?_
          exact ⟨j, before, starts ▸ overEarlier⟩
        · omega
      · rcases elementPos_checked named own fits (show i ≤ defaultListCap by omega) with
          ⟨_, pos, starts, low, placed⟩ | ⟨beyond, _⟩
        · rw [placed, ok_bind]
          rw [← starts] at overrun
          exact ((reads.checked low short).resolve_right fun other => other.1 overrun).2
        · omega

theorem tracks_decodeStructList {γ τ : Type} (id : Int16) {prepare : Arith → Layout → Result γ}
    {decode : Arith → γ → Pos → Result τ}
    (prepares : ∀ layout arith, prepare arith layout = prepare .exact layout)
    (each : ∀ columns pos, Tracks fun arith => decode arith columns pos) :
    Tracks fun arith =>
      (metadataIn m arith).decodeStructList id (prepare arith) (decode arith) := by
  refine tracks_overItems short fun range itemLayout => ?_
  refine .bind (.of_constant (prepares itemLayout)) fun columns => .collect (fun i => ?_) _
  exact (tracks_elementPos m.frozen range i).bind fun pos => each columns pos

/-- A list of structs panics exactly where an element overruns. -/
theorem decodeStructList_eq_panicked {γ τ : Type} {id : Int16} {fieldIds : List Int16}
    {prepare : Layout → Result γ} {decode : γ → Pos → Result τ} (columnsOf : γ → List Column)
    (prepared : ∀ layout, (prepare layout).map columnsOf = collect (m.column layout) fieldIds)
    (reads : ∀ columns, Reads (metadataIn m (.machine .checked)) (columnsOf columns)
      (decode columns)) :
    (metadataIn m (.machine .checked)).decodeStructList id prepare decode = panicked ↔
      StructOverrun (metadataIn m .exact) id fieldIds := by
  rw [decodeStructList_eq, overItems_eq_panicked short]
  constructor
  · rintro ⟨range, itemLayout, listed, fits, stopped⟩
    obtain ⟨item, named, own, few⟩ := listed.item
    have columns := prepared itemLayout
    rcases bind_eq_panicked.mp stopped with early | ⟨resolved, prepares, stopped⟩
    · rw [early] at columns
      exact absurd columns.symm (settles_columns itemLayout fieldIds).1
    · rw [prepares] at columns
      obtain ⟨i, below, inside, overrun, reached⟩ :=
        (rows_eq_panicked short named own few fits (reads resolved)).mp stopped
      exact ⟨range, itemLayout, columnsOf resolved, i, listed, columns.symm, below, inside, overrun,
        reached⟩
  · rintro ⟨range, itemLayout, columns, i, listed, collected, below, inside, overrun, reached⟩
    obtain ⟨item, named, own, few⟩ := listed.item
    have fits : range.dataByte < wordLimit := by
      simp only [elementStart] at inside
      omega
    refine ⟨range, itemLayout, listed, fits, ?_⟩
    have same := (prepared itemLayout).trans collected
    cases prepares : prepare itemLayout with
    | error failure =>
      rw [prepares] at same
      cases same
    | ok resolved =>
      rw [prepares] at same
      cases same
      rw [ok_bind, rows_eq_panicked short named own few fits (reads resolved)]
      exact ⟨i, below, inside, overrun, reached⟩

end StructLists

section StringLists

variable {m : Metadata} {pos : Pos}

/-- A string that was read lies in the buffer, and so does its range. -/
theorem readStringBytes_inside {frozen : Frozen} {layout : Layout} {text : Bytes}
    (read : frozen.readStringBytes pos layout = .ok text) : pos.byte ≤ frozen.bytes.length := by
  simp only [Frozen.readStringBytes, Frozen.readRange, bind_eq_ok, okOr_eq_ok, refuseIf_eq_ok,
    pure_eq_ok, Except.ok.injEq] at read
  obtain ⟨range, ⟨count, _, distance, _, dataByte, added, rfl⟩, stop, ends, _, inside, _⟩ := read
  have start := checkedAdd_eq_add added
  have finish := checkedAdd_eq_add ends
  simp only at finish
  omega

variable (low : pos.bit ≤ clear) (short : 8 * m.frozen.bytes.length < wordLimit)
include low short

/-- Beyond the buffer a count that can be read has no width. -/
theorem readCount_checked (beyond : m.frozen.bytes.length < pos.byte) (layout : Layout) :
    (CountCarries m pos.byte layout ∧
      (metadataIn m (.machine .checked)).frozen.readRangeField pos (layout.field 2) = panicked) ∨
    (¬ CountCarries m pos.byte layout ∧
      Settles ((metadataIn m (.machine .checked)).frozen.readRangeField pos (layout.field 2))
        (· = 0)) := by
  cases found : layout.field 2 with
  | none => exact Or.inr ⟨by simp [CountCarries, found], settles_ok rfl⟩
  | some field =>
    cases own : m.schema.layout field.layoutId with
    | error failure =>
      refine Or.inr ⟨by simp [CountCarries, found, own], ?_⟩
      exact (settles_okOr ..).bind fun other known => by
        rw [show m.schema.layout field.layoutId = .ok other from okOr_eq_ok.mpr known] at own
        cases own
    | ok own' =>
      have read : (metadataIn m (.machine .checked)).frozen.readRangeField pos (some field) =
          ((metadataIn m (.machine .checked)).frozen.child pos field >>= fun at_ =>
            (metadataIn m (.machine .checked)).frozen.readIntegral at_ own'.bits) := by
        simp only [Frozen.readRangeField]
        rw [show (metadataIn m (.machine .checked)).frozen.schema.layout field.layoutId =
          .ok own' from own, ok_bind]
      rw [read]
      rcases readField_checked low short field own'.bits with ⟨carries, stopped⟩ | ⟨stays, settles⟩
      · exact Or.inl ⟨⟨field, own', found, own, carries⟩, stopped⟩
      · refine Or.inr ⟨?_, settles.mono fun value read => ?_⟩
        · rintro ⟨other, _, same, _, carries⟩
          rw [found, Option.some.injEq] at same
          exact stays (same ▸ carries)
        · exact (read.resolve_right (by omega)).2

/-- A string panics exactly where its count does: a count that was read lies in the buffer. -/
theorem readStringBytes_eq_panicked {layout : Layout} :
    (metadataIn m (.machine .checked)).frozen.readStringBytes pos layout = panicked ↔
      CountCarries m pos.byte layout := by
  by_cases buffered : pos.byte ≤ m.frozen.bytes.length
  · have limit := wordLimit_eq
    have within : Within clear pos := ⟨by simp only [clear]; omega, low⟩
    have calm := settles_readStringBytes (short_in short (.machine .checked)) within (by decide) layout
    refine iff_of_false calm.1 ?_
    rintro ⟨field, _, _, _, _, beyond⟩
    have offset := field.offset.toInt_lt
    omega
  · rcases readCount_checked low short (Nat.lt_of_not_le buffered) layout with
      ⟨carries, stopped⟩ | ⟨stays, settles⟩
    · refine iff_of_true ?_ carries
      simp only [Frozen.readStringBytes, Frozen.readRange, stopped, error_bind]
    · refine iff_of_false ?_ stays
      have range : Settles ((metadataIn m (.machine .checked)).frozen.readRange pos layout)
          fun _ => True := by
        refine settles.bind fun count none_ => ?_
        subst none_
        exact (settles_okOr ..).bind fun _ _ => settles_ok trivial
      have text : Settles ((metadataIn m (.machine .checked)).frozen.readStringBytes pos layout)
          fun _ => True := by
        refine range.bind fun view _ => (settles_okOr ..).bind fun stop added => ?_
        refine (settles_refuseIf ..).bind fun _ inside => ?_
        have ends := checkedAdd_eq_add added
        exact settles_slice (by omega) (by omega)
      exact text.1

end StringLists

section StringElements

variable {m : Metadata} {range : RangeView} {itemLayout : Layout} {item : Int16} {β : Type}

/-- One string of a list, and what is done with its bytes. -/
def stringElement (m : Metadata) (range : RangeView) (itemLayout : Layout)
    (finish : Bytes → Result β) (i : Nat) : Result β := do
  let pos ← m.frozen.elementPos range i
  let bytes ← m.frozen.readStringBytes pos itemLayout
  finish bytes

variable (short : 8 * m.frozen.bytes.length < wordLimit)
  (named : range.itemLayoutId = some item) (own : m.schema.layout item = .ok itemLayout)
  (fits : range.dataByte < wordLimit)
include short named own fits

theorem stringElement_eq_panicked {finish : Bytes → Result β} (calm : ∀ text, finish text ≠ panicked)
    {i : Nat} (few : i ≤ defaultListCap) :
    stringElement (metadataIn m (.machine .checked)) range itemLayout finish i = panicked ↔
      elementStart range itemLayout i < wordLimit ∧
        CountCarries m (elementStart range itemLayout i) itemLayout := by
  unfold stringElement
  rcases elementPos_checked named own fits few with
    ⟨inside, pos, starts, low, placed⟩ | ⟨beyond, reason, refused⟩
  · rw [placed, ok_bind, bind_eq_panicked, readStringBytes_eq_panicked low short, starts]
    constructor
    · rintro (carries | ⟨text, _, stopped⟩)
      · exact ⟨inside, carries⟩
      · exact absurd stopped (calm text)
    · exact fun both => Or.inl both.2
  · rw [refused, error_bind]
    refine iff_of_false (by simp) fun both => ?_
    omega

/-- Once the first string was read, it lies in the buffer and the others start nearby. -/
theorem stringElement_later {γ : Type} {finish : Bytes → Result β} {other : Bytes → Result γ}
    (calm : ∀ text, finish text ≠ panicked) {first : γ}
    (read : stringElement (metadataIn m (.machine .checked)) range itemLayout other 0 = .ok first)
    {i : Nat} (few : i ≤ defaultListCap) :
    stringElement (metadataIn m (.machine .checked)) range itemLayout finish i ≠ panicked := by
  rw [Ne, stringElement_eq_panicked short named own fits calm few]
  rintro ⟨_, field, _, _, _, _, beyond⟩
  unfold stringElement at read
  rcases elementPos_checked named own fits (Nat.zero_le defaultListCap) with
    ⟨_, pos, starts, _, placed⟩ | ⟨_, reason, refused⟩
  · rw [placed, ok_bind] at read
    obtain ⟨text, read, _⟩ := bind_eq_ok.mp read
    have inside := readStringBytes_inside read
    simp only [metadataIn, frozenIn] at inside
    have offset := field.offset.toInt_lt
    have limit := wordLimit_eq
    have step : i * itemLayout.size.toNat ≤ defaultListCap * 2 ^ 32 :=
      Nat.mul_le_mul few (Nat.le_of_lt itemLayout.size.toNat_lt)
    simp only [elementStart, defaultListCap, Nat.zero_mul, Nat.add_zero] at starts step beyond
    omega
  · rw [refused] at read
    cases read

end StringElements

section StringAccessors

variable {m : Metadata}

/-- The accessor looks at nothing of the items but whether they are an array. -/
theorem readOptionalStringList_eq (m : Metadata) (id : Int16) (name : String) :
    m.readOptionalStringList id name =
      overItems m id name [] (fun _ => Metadata.decodeError s!"{name} (id {id}) is not a range")
        fun range itemLayout => collect (stringElement m range itemLayout fun bytes =>
          okOr (Lib.Utf8.decode bytes) (Metadata.decodeError s!"non-utf8 string in {name}"))
          (List.range range.count) := by
  simp only [Metadata.readOptionalStringList, overItems]
  refine bind_congr fun resolved => ?_
  rcases resolved with _ | ⟨layout, pos⟩
  · rfl
  · refine bind_congr (x := LayoutKind.of m.schema layout) fun kind => ?_
    cases kind <;> rfl

theorem readPlainStringList_eq (m : Metadata) (id : Int16) :
    m.readPlainStringList id =
      overItems m id "list-count" StringTable.empty
        (fun _ => Metadata.decodeError s!"field {id} is not an array of strings")
        fun range itemLayout => (List.range range.count).foldlM (fun out i =>
          stringElement m range itemLayout (Metadata.pushString "string list" out) i)
          { data := [], offsets := [0] } := by
  simp only [Metadata.readPlainStringList, overItems]
  refine bind_congr fun resolved => ?_
  rcases resolved with _ | ⟨layout, pos⟩
  · rfl
  · refine bind_congr (x := LayoutKind.of m.schema layout) fun kind => ?_
    cases kind <;> rfl

variable (short : 8 * m.frozen.bytes.length < wordLimit)
include short

omit short in
theorem tracks_stringElement {β : Type} (range : RangeView) (itemLayout : Layout)
    (finish : Bytes → Result β) (i : Nat) :
    Tracks fun arith => stringElement (metadataIn m arith) range itemLayout finish i :=
  (tracks_elementPos m.frozen range i).bind fun pos =>
    (tracks_readStringBytes m.frozen pos itemLayout).bind fun _ => .of_constant fun _ => rfl

theorem tracks_readOptionalStringList (id : Int16) (name : String) :
    Tracks fun arith => (metadataIn m arith).readOptionalStringList id name := by
  simp only [readOptionalStringList_eq]
  exact tracks_overItems short fun range itemLayout =>
    .collect (fun i => tracks_stringElement range itemLayout _ i) _

theorem tracks_readPlainStringList (id : Int16) :
    Tracks fun arith => (metadataIn m arith).readPlainStringList id := by
  simp only [readPlainStringList_eq]
  exact tracks_overItems short fun range itemLayout =>
    .foldlM (fun out i => tracks_stringElement range itemLayout _ i) _ _

theorem readOptionalStringList_eq_panicked (id : Int16) (name : String) :
    (metadataIn m (.machine .checked)).readOptionalStringList id name = panicked ↔
      StringOverrun (metadataIn m .exact) id := by
  rw [readOptionalStringList_eq, overItems_eq_panicked short]
  refine exists_congr fun range => exists_congr fun itemLayout => and_congr_right fun listed =>
    and_congr_right fun fits => ?_
  obtain ⟨item, named, own, few⟩ := listed.item
  have here := stringElement_eq_panicked short named own fits
    (fun text => okOr_ne_panicked (Lib.Utf8.decode text)
      (Metadata.decodeError s!"non-utf8 string in {name}")) (Nat.zero_le defaultListCap)
  have starts : elementStart range itemLayout 0 = range.dataByte := by simp [elementStart]
  rw [starts] at here
  rw [collect_range_eq_panicked]
  constructor
  · rintro ⟨i, below, earlier, stopped⟩
    rcases Nat.eq_zero_or_pos i with rfl | later
    · exact ⟨below, (here.mp stopped).2⟩
    · obtain ⟨first, read⟩ := earlier 0 later
      exact absurd stopped (stringElement_later short named own fits
        (fun _ => okOr_ne_panicked _ _) read (by omega))
  · rintro ⟨some_, carries⟩
    exact ⟨0, some_, by simp, here.mpr ⟨fits, carries⟩⟩

theorem readPlainStringList_eq_panicked (id : Int16) :
    (metadataIn m (.machine .checked)).readPlainStringList id = panicked ↔
      StringOverrun (metadataIn m .exact) id := by
  rw [readPlainStringList_eq, overItems_eq_panicked short]
  refine exists_congr fun range => exists_congr fun itemLayout => and_congr_right fun listed =>
    and_congr_right fun fits => ?_
  obtain ⟨item, named, own, few⟩ := listed.item
  have calm (table : StringTable) (text : Bytes) :
      Metadata.pushString "string list" table text ≠ panicked := (settles_pushString ..).1
  have here := stringElement_eq_panicked short named own fits
    (calm { data := [], offsets := [0] }) (Nat.zero_le defaultListCap)
  have starts : elementStart range itemLayout 0 = range.dataByte := by simp [elementStart]
  rw [starts] at here
  refine (foldlM_range_eq_panicked fun first read acc i below =>
    stringElement_later short named own fits (calm acc) read (by omega)).trans ?_
  exact and_congr_right fun _ => here.trans ⟨fun both => both.2, fun carries => ⟨fits, carries⟩⟩

end StringAccessors

end Rdwarfs.Guarantees.ListOverruns
