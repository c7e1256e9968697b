import Rdwarfs.Guarantees.FrozenPositions
import Rdwarfs.Guarantees.PackedTables

/-!
# String tables, window by window

The offsets of an index are positions in the stored buffer, those of the decoded table are
positions in the decoded strings. One string comes from each window between two neighbouring
offsets, and the packed index, which leaves the leading zero out, gives the same windows.
-/
namespace Rdwarfs.Guarantees.StringTables

open Lib.Machine Lib.Builds Source Source.Metadata Metadata PackedTables FrozenPositions

section Windows

variable {offsets : List UInt32}

theorem windows_length : (windows offsets).length = offsets.length - 1 := by
  fun_induction windows offsets with
  | case1 first second rest ih =>
    rw [List.length_cons, ih]
    simp
  | case2 offsets short =>
    match offsets, short with
    | [], _ => rfl
    | [_], _ => rfl
    | first :: second :: rest, short => exact absurd rfl (short first second rest)

theorem windows_getElem? (i : Nat) {start stop : UInt32} :
    (windows offsets)[i]? = some (start, stop) ↔
      offsets[i]? = some start ∧ offsets[i + 1]? = some stop := by
  fun_induction windows offsets generalizing i with
  | case1 first second rest ih =>
    cases i with
    | zero => simp
    | succ i => simpa using ih i
  | case2 offsets short =>
    match offsets, short with
    | [], _ => simp
    | [_], _ => simp
    | first :: second :: rest, short => exact absurd rfl (short first second rest)

theorem windows_ordered (ordered : offsets.Pairwise (· ≤ ·)) {span : UInt32 × UInt32}
    (member : span ∈ windows offsets) :
    span.1.toNat ≤ span.2.toNat ∧ span.2 ∈ offsets := by
  obtain ⟨i, found⟩ := List.mem_iff_getElem?.mp member
  obtain ⟨first, second⟩ := (windows_getElem? i).mp found
  obtain ⟨low, first⟩ := List.getElem?_eq_some_iff.mp first
  obtain ⟨high, second⟩ := List.getElem?_eq_some_iff.mp second
  have le := List.pairwise_iff_getElem.mp ordered i (i + 1) low high (Nat.lt_succ_self i)
  rw [first, second] at le
  exact ⟨UInt32.le_iff_toNat_le.mp le, second ▸ List.getElem_mem high⟩

end Windows

/-- The bytes between the two offsets of a window. -/
def stored (buffer : Bytes) (span : UInt32 × UInt32) : Bytes :=
  field buffer span.1.toNat (span.2.toNat - span.1.toNat)

/-- A window that is not in order or not in the buffer. -/
def Stray (buffer : Bytes) (span : UInt32 × UInt32) : Prop :=
  span.2.toNat < span.1.toNat ∨ buffer.length < span.2.toNat

/-- The step that `decode_string_table` makes for a window. -/
def pushWindow (buffer : Bytes) (table : Option SymTable) (out : StringTable)
    (span : UInt32 × UInt32) : Result StringTable := do
  let start := span.1.toNat
  let stop := span.2.toNat
  refuseIf (stop < start ∨ stop > buffer.length) (decodeError
    s!"string_table slice {start}..{stop} out of buffer ({buffer.length} bytes)")
  let window ← slice buffer start stop
  let bytes ← decompress table window
  pushString "string table" out bytes

/-- The offsets that an index stands for. -/
def offsetsOf (index : List UInt32) (packed : Bool) : List UInt32 :=
  if packed then 0 :: inclusivePrefixSumU32 index else index

theorem decodeStringTable_eq (buffer : Bytes) (symtab : Option Bytes) (index : List UInt32)
    (packed : Bool) :
    decodeStringTable buffer symtab index packed =
      if (offsetsOf index packed).length < 2 then .ok StringTable.empty
      else parseSymbols symtab >>= fun table =>
        (windows (offsetsOf index packed)).foldlM (pushWindow buffer table)
          { data := [], offsets := [0] } := rfl

/-- The table holds the strings: offset `i` is where string `i` starts. -/
structure Holds (strings : List Bytes) (table : StringTable) : Prop where
  data : table.data = strings.flatten
  offsets : table.offsets.length = strings.length + 1
  marks : ∀ i, i ≤ strings.length →
    table.offsets[i]? = some (UInt32.ofNat (strings.take i).flatten.length)

theorem holds_nil : Holds [] { data := [], offsets := [0] } where
  data := rfl
  offsets := rfl
  marks := by
    intro i le
    rw [Nat.le_zero.mp le]
    rfl

theorem holds_snoc {strings : List Bytes} {table : StringTable} (holds : Holds strings table)
    (bytes : Bytes) :
    Holds (strings ++ [bytes])
      { data := table.data ++ bytes
        offsets := table.offsets ++ [UInt32.ofNat (table.data ++ bytes).length] } where
  data := by simp [holds.data]
  offsets := by simp [holds.offsets]
  marks := by
    intro i le
    rw [List.length_append, List.length_singleton] at le
    rcases Nat.lt_or_ge strings.length i with new | old
    · have last : i = (strings ++ [bytes]).length := by
        rw [List.length_append, List.length_singleton]
        omega
      rw [List.getElem?_append_right (by rw [holds.offsets]; omega), holds.offsets, holds.data,
        last, List.take_length]
      simp
    · rw [List.getElem?_append_left (by rw [holds.offsets]; omega),
        List.take_append_of_le_length old]
      exact holds.marks i old

section Holding

variable {strings : List Bytes} {table : StringTable}

theorem holds_len (holds : Holds strings table) : table.len = strings.length := by
  rw [StringTable.len, holds.offsets]
  rfl

/-- Below 4 GiB no offset was cut off, and each string is read back. -/
theorem holds_get (holds : Holds strings table) (small : strings.flatten.length < 2 ^ 32)
    (i : Nat) : table.get i = strings[i]? := by
  rcases Nat.lt_or_ge i strings.length with below | beyond
  · have known := List.getElem?_eq_getElem below
    have next : strings.take (i + 1) = strings.take i ++ [strings[i]] :=
      List.take_succ_eq_append_getElem below
    have split : strings.flatten =
        (strings.take i).flatten ++ (strings[i] ++ (strings.drop (i + 1)).flatten) := by
      have whole := congrArg List.flatten (List.take_append_drop (i + 1) strings)
      rw [next, List.flatten_append, List.flatten_append, List.flatten_singleton,
        List.append_assoc] at whole
      exact whole.symm
    have total := congrArg List.length split
    simp only [List.length_append] at total
    have start := holds.marks i (Nat.le_of_lt below)
    have stop := holds.marks (i + 1) below
    rw [next, List.flatten_append, List.length_append, List.flatten_singleton] at stop
    have low : (UInt32.ofNat (strings.take i).flatten.length).toNat =
        (strings.take i).flatten.length := by
      rw [UInt32.toNat_ofNat']
      omega
    have high : (UInt32.ofNat ((strings.take i).flatten.length + strings[i].length)).toNat =
        (strings.take i).flatten.length + strings[i].length := by
      rw [UInt32.toNat_ofNat']
      omega
    rw [StringTable.get, start, stop, known]
    simp only [Option.bind_eq_bind, Option.bind_some, low, high, holds.data]
    rw [if_pos ⟨Nat.le_add_right .., by omega⟩, Nat.add_sub_cancel_left,
      field_of_split split rfl rfl]
  · have absent : table.offsets[i + 1]? = none :=
      List.getElem?_eq_none (by rw [holds.offsets]; omega)
    rw [List.getElem?_eq_none beyond, StringTable.get, absent]
    cases table.offsets[i]? <;> rfl

end Holding

section Pushing

theorem pushString_of_lt {out : StringTable} {bytes : Bytes} (what : String)
    (small : (out.data ++ bytes).length < 2 ^ 32) :
    pushString what out bytes =
      .ok { data := out.data ++ bytes
            offsets := out.offsets ++ [UInt32.ofNat (out.data ++ bytes).length] } := by
  rw [pushString, u32Of, if_pos small]
  rfl

/-- A loop that pushes strings of less than 4 GiB adds all of them. -/
theorem pushStrings_holds {α : Type} {push : StringTable → α → Result StringTable} {what : String}
    {xs : List α} {done strings : List Bytes} {out : StringTable}
    (each : List.Forall₂ (fun x bytes => ∀ out, push out x = pushString what out bytes) xs strings)
    (small : (done ++ strings).flatten.length < 2 ^ 32) (holds : Holds done out) :
    ∃ final, xs.foldlM push out = .ok final ∧ Holds (done ++ strings) final := by
  induction each generalizing done out with
  | nil => exact ⟨out, rfl, by rwa [List.append_nil]⟩
  | @cons x bytes xs strings here _ ih =>
    have split : done ++ bytes :: strings = (done ++ [bytes]) ++ strings := by simp
    rw [split] at small ⊢
    have now : (out.data ++ bytes).length < 2 ^ 32 := by
      rw [List.flatten_append, List.length_append, List.flatten_append, List.flatten_singleton] at small
      rw [holds.data]
      omega
    obtain ⟨final, ran, held⟩ := ih small (holds_snoc holds bytes)
    refine ⟨final, ?_, held⟩
    rw [List.foldlM_cons, here, pushString_of_lt what now, ok_bind, ran]

theorem pushStrings_all {α : Type} {push : StringTable → α → Result StringTable} {what : String}
    {xs : List α} {strings : List Bytes}
    (each : List.Forall₂ (fun x bytes => ∀ out, push out x = pushString what out bytes) xs strings)
    (small : strings.flatten.length < 2 ^ 32) :
    ∃ final, xs.foldlM push { data := [], offsets := [0] } = .ok final ∧ Holds strings final := by
  have small : ([] ++ strings).flatten.length < 2 ^ 32 := small
  exact pushStrings_holds each small holds_nil

end Pushing

section Decoding

variable {buffer : Bytes} {table : Option SymTable} {out : StringTable}

theorem pushWindow_of_decoded {span : UInt32 × UInt32} {bytes : Bytes}
    (inside : ¬ Stray buffer span) (decoded : decompress table (stored buffer span) = .ok bytes) :
    pushWindow buffer table out span = pushString "string table" out bytes := by
  have absent : ¬ (span.2.toNat < span.1.toNat ∨ span.2.toNat > buffer.length) := inside
  rw [pushWindow, refuseIf_of_not absent, ok_bind, slice_of_le (by omega) (by omega), ok_bind]
  rw [stored, Source.field] at decoded
  rw [decoded, ok_bind]

theorem pushWindows_of_decoded {spans : List (UInt32 × UInt32)} {strings : List Bytes}
    (inside : ∀ span ∈ spans, ¬ Stray buffer span)
    (decoded : collect (fun span => decompress table (stored buffer span)) spans = .ok strings)
    (small : strings.flatten.length < 2 ^ 32) :
    ∃ final, spans.foldlM (pushWindow buffer table) { data := [], offsets := [0] } = .ok final ∧
      Holds strings final := by
  suffices each : List.Forall₂ (fun span bytes => ∀ out,
      pushWindow buffer table out span = pushString "string table" out bytes) spans strings by
    exact pushStrings_all each small
  rw [collect_eq_ok] at decoded
  induction decoded with
  | nil => exact .nil
  | @cons span bytes spans strings here _ ih =>
    rw [List.flatten_cons, List.length_append] at small
    refine .cons (fun out => pushWindow_of_decoded (inside span List.mem_cons_self) here) ?_
    exact ih (fun other member => inside other (List.mem_cons_of_mem _ member)) (by omega)

/-- A fold that returns went through every window. -/
theorem pushWindows_inside {spans : List (UInt32 × UInt32)} {final : StringTable}
    (ran : spans.foldlM (pushWindow buffer table) out = .ok final) :
    ∀ span ∈ spans, ¬ Stray buffer span := by
  induction spans generalizing out with
  | nil => simp
  | cons span rest ih =>
    rw [List.foldlM_cons] at ran
    obtain ⟨next, pushed, later⟩ := bind_eq_ok.mp ran
    intro other member
    rcases List.mem_cons.mp member with rfl | member
    · rw [pushWindow] at pushed
      obtain ⟨_, inside, _⟩ := bind_eq_ok.mp pushed
      have absent := refuseIf_eq_ok.mp inside
      exact absent
    · exact ih later other member

end Decoding

section Tables

variable {buffer : Bytes} {symtab : Option Bytes}

/-- A packed index stands for the offsets it was packed from. -/
theorem decodeStringTable_packed (rest : List UInt32) :
    decodeStringTable buffer symtab (deltasFrom 0 rest) true =
      decodeStringTable buffer symtab (0 :: rest) false := by
  have same : offsetsOf (deltasFrom 0 rest) true = offsetsOf (0 :: rest) false := by
    rw [offsetsOf, if_pos rfl, inclusivePrefixSumU32, prefixSumFrom_deltasFrom]
    rfl
  rw [decodeStringTable_eq, decodeStringTable_eq, same]

theorem decodeStringTable_holds {table : Option SymTable} {rest : List UInt32}
    {strings : List Bytes} (accepted : parseSymbols symtab = .ok table)
    (ordered : (0 :: rest).Pairwise (· ≤ ·)) (inside : ∀ offset ∈ rest, offset.toNat ≤ buffer.length)
    (decoded : collect (fun span => decompress table (stored buffer span)) (windows (0 :: rest)) =
      .ok strings)
    (small : strings.flatten.length < 2 ^ 32) :
    ∃ out, decodeStringTable buffer symtab (0 :: rest) false = .ok out ∧
      out.len = strings.length ∧ ∀ i, out.get i = strings[i]? := by
  cases rest with
  | nil =>
    cases decoded
    exact ⟨StringTable.empty, rfl, rfl, fun i => rfl⟩
  | cons second rest =>
    have fits : ∀ span ∈ windows (0 :: second :: rest), ¬ Stray buffer span := by
      intro span member stray
      obtain ⟨le, last⟩ := windows_ordered ordered member
      have bound : span.2.toNat ≤ buffer.length := by
        rcases List.mem_cons.mp last with first | later
        · rw [first]
          exact Nat.zero_le _
        · exact inside span.2 later
      rcases stray with back | out
      · omega
      · omega
    obtain ⟨out, ran, holds⟩ := pushWindows_of_decoded fits decoded small
    refine ⟨out, ?_, holds_len holds, holds_get holds small⟩
    have many : ¬ (offsetsOf (0 :: second :: rest) false).length < 2 := by
      simp [offsetsOf]
    rw [decodeStringTable_eq, if_neg many, accepted, ok_bind]
    exact ran

theorem decodeStringTable_refuses {index : List UInt32} {packed : Bool}
    {span : UInt32 × UInt32} (member : span ∈ windows (offsetsOf index packed))
    (stray : Stray buffer span) :
    ∃ reason, decodeStringTable buffer symtab index packed = fail reason := by
  have settles := (settles_decodeStringTable buffer symtab index packed).1
  cases ran : decodeStringTable buffer symtab index packed with
  | error failure =>
    cases failure with
    | err reason => exact ⟨reason, rfl⟩
    | panic => exact absurd ran settles
  | ok out =>
    have some_ := List.length_pos_of_mem member
    rw [windows_length] at some_
    rw [decodeStringTable_eq, if_neg (by omega)] at ran
    obtain ⟨table, _, folded⟩ := bind_eq_ok.mp ran
    exact absurd stray (pushWindows_inside folded span member)

end Tables

/-- A table of strings that decode to less than 4 GiB is read the same way from its plain and
from its packed index, one string for each window; a stray window is refused. -/
theorem decodeStringTable_windows (buffer : Bytes) (symtab : Option Bytes) :
    (∀ (table : Option SymTable) (rest : List UInt32) (strings : List Bytes),
      parseSymbols symtab = .ok table → (0 :: rest).Pairwise (· ≤ ·) →
      (∀ offset ∈ rest, offset.toNat ≤ buffer.length) →
      collect (fun span => decompress table (stored buffer span)) (windows (0 :: rest)) =
        .ok strings →
      strings.flatten.length < 2 ^ 32 →
      ∃ out, decodeStringTable buffer symtab (0 :: rest) false = .ok out ∧
        decodeStringTable buffer symtab (deltasFrom 0 rest) true = .ok out ∧
        out.len = rest.length ∧
        (∀ (i : Nat) (start stop : UInt32), (0 :: rest)[i]? = some start →
          (0 :: rest)[i + 1]? = some stop →
          ∃ bytes, decompress table (stored buffer (start, stop)) = .ok bytes ∧
            out.get i = some bytes) ∧
        ∀ i, rest.length ≤ i → out.get i = none) ∧
    ∀ (index : List UInt32) (packed : Bool),
      (∃ span ∈ windows (offsetsOf index packed), Stray buffer span) →
        ∃ reason, decodeStringTable buffer symtab index packed = fail reason := by
  refine ⟨fun table rest strings accepted ordered inside decoded small => ?_,
    fun index packed ⟨span, member, stray⟩ => decodeStringTable_refuses member stray⟩
  obtain ⟨out, ran, len, get⟩ := decodeStringTable_holds accepted ordered inside decoded small
  have each := (collect_eq_ok ..).mp decoded
  have count : strings.length = rest.length := by
    rw [← each.length_eq, windows_length]
    rfl
  refine ⟨out, ran, by rw [decodeStringTable_packed, ran], by rw [len, count], ?_, ?_⟩
  · intro i start stop first second
    have window := (windows_getElem? i).mpr ⟨first, second⟩
    obtain ⟨below, window⟩ := List.getElem?_eq_some_iff.mp window
    have known : i < strings.length := each.length_eq ▸ below
    have read := each.get below known
    simp only [List.get_eq_getElem, window] at read
    exact ⟨_, read, by rw [get, List.getElem?_eq_getElem known]⟩
  · intro i beyond
    rw [get, List.getElem?_eq_none (by omega)]

/-- `aabbb`, cut after two bytes. -/
theorem decodeStringTable_windows_two :
    ∃ out, decodeStringTable [97, 97, 98, 98, 98] none [0, 2, 5] false = .ok out ∧
      decodeStringTable [97, 97, 98, 98, 98] none [2, 3] true = .ok out ∧ out.len = 2 := by
  obtain ⟨out, plain, packed, len, _⟩ :=
    (decodeStringTable_windows [97, 97, 98, 98, 98] none).1 none [2, 5] [[97, 97], [98, 98, 98]]
      rfl (by decide) (by simp) rfl (by decide)
  exact ⟨out, plain, packed, len⟩

end Rdwarfs.Guarantees.StringTables
