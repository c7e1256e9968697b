import Rdwarfs.Source.Metadata.Fsst
import Mathlib.Data.List.Nodup

/-!
# Symbol tables are read as they were exported

An exported table stores its symbols by length, two to eight and then one, and leaves the
codes to be counted off in that order. Parsing counts the same codes, so that decoding undoes
any way of writing a string as codes and escaped literals.
-/
namespace Rdwarfs.Guarantees.FsstCodec

open Lib.Machine Source Source.Metadata SymTable

/-- Sorted into one bucket per key, a list keeps its members. -/
theorem perm_buckets {α : Type} (key : α → Nat) {keys : List Nat} (distinct : keys.Nodup)
    (xs : List α) (covered : ∀ x ∈ xs, key x ∈ keys) :
    (keys.flatMap fun k => xs.filter fun x => key x = k).Perm xs := by
  induction keys generalizing xs with
  | nil =>
    cases xs with
    | nil => exact List.Perm.refl _
    | cons x rest => exact absurd (covered x (by simp)) (by simp)
  | cons k keys ih =>
    obtain ⟨absent, distinct⟩ := List.nodup_cons.mp distinct
    have others := ih distinct (xs.filter fun x => !decide (key x = k)) fun x member => by
      obtain ⟨member, differs⟩ := List.mem_filter.mp member
      rcases List.mem_cons.mp (covered x member) with same | later
      · simp [same] at differs
      · exact later
    have kept : (keys.flatMap fun k' =>
          (xs.filter fun x => !decide (key x = k)).filter fun x => key x = k') =
        keys.flatMap fun k' => xs.filter fun x => key x = k' := by
      apply List.flatMap_congr
      intro k' member
      rw [List.filter_filter]
      apply List.filter_congr
      intro x _
      by_cases same : key x = k'
      · have apart : k' ≠ k := fun equal => absent (equal ▸ member)
        simp [same, apart]
      · simp [same]
    rw [kept] at others
    rw [List.flatMap_cons]
    exact (others.append_left _).trans (List.filter_append_perm ..)

/-- The lengths of the symbols in the order they are stored. -/
def lengthOrder : List Nat := [2, 3, 4, 5, 6, 7, 8, 1]

/-- What an encoder writes down as a table: at most 255 codes, one of them reserved in
zero-terminated mode. The low half of the version word is its own. -/
structure Exported where
  low : UInt32
  flag : UInt8
  symbols : List Bytes
  sized : ∀ symbol ∈ symbols, 1 ≤ symbol.length ∧ symbol.length ≤ 8
  few : symbols.length + flag.toNat % 2 ≤ 255

namespace Exported

variable (exported : Exported)

def zeroTerminated : Bool := exported.flag.toNat % 2 = 1

/-- The first code. -/
def base : Nat := exported.flag.toNat % 2

def ofLen (len : Nat) : List Bytes := exported.symbols.filter fun symbol => symbol.length = len

/-- The symbols as they are stored. -/
def serial : List Bytes := lengthOrder.flatMap exported.ofLen

/-- Slot `i` counts the symbols of `i + 1` bytes; the reserved code counts as one of a byte. -/
def count (slot : Nat) : Nat :=
  (exported.ofLen (slot + 1)).length + if slot = 0 then exported.base else 0

def header : Bytes :=
  leBytes 4 exported.low.toNat ++ leBytes 4 Fsst.version ++ exported.flag ::
    (List.range 8).map fun slot => UInt8.ofNat (exported.count slot)

def bytes : Bytes := exported.header ++ exported.serial.flatten

def code (k : Nat) : UInt8 := UInt8.ofNat (exported.base + k)

def Unassigned (code : UInt8) : Prop :=
  ¬ (exported.base ≤ code.toNat ∧ code.toNat < exported.base + exported.serial.length)

theorem lengthOrder_eq : lengthOrder = slots.map (· + 1) := rfl

theorem serial_perm : exported.serial.Perm exported.symbols := by
  have distinct : lengthOrder.Nodup := by decide
  apply perm_buckets List.length distinct
  intro symbol member
  have sized := exported.sized symbol member
  simp only [lengthOrder, List.mem_cons, List.not_mem_nil, or_false]
  omega

theorem serial_few : exported.base + exported.serial.length ≤ 255 := by
  rw [exported.serial_perm.length_eq, Nat.add_comm]
  exact exported.few

theorem count_le (slot : Nat) : exported.count slot ≤ 255 := by
  have few := exported.few
  have part : (exported.ofLen (slot + 1)).length ≤ exported.symbols.length :=
    List.length_filter_le ..
  simp only [count, base]
  split <;> omega

/-- The lengths that the parser counts off are those of the stored symbols. -/
theorem serial_lengths :
    exported.serial.map List.length =
      slots.flatMap fun slot => List.replicate (exported.ofLen (slot + 1)).length (slot + 1) := by
  rw [serial, lengthOrder_eq, List.flatMap_map, List.map_flatMap]
  apply List.flatMap_congr
  intro slot _
  apply List.eq_replicate_iff.mpr
  refine ⟨List.length_map .., fun len member => ?_⟩
  obtain ⟨symbol, listed, rfl⟩ := List.mem_map.mp member
  simpa using (List.mem_filter.mp listed).2

end Exported

/-- The symbols read so far take the codes from `base` on. -/
structure Stored (base : Nat) (done : List Bytes) (progress : Progress) : Prop where
  symbols : progress.symbols = done.flatten
  code : progress.code = base + done.length
  pos : progress.pos = Fsst.headerLen + done.flatten.length
  spans : progress.spans.length = Fsst.numCodes
  assigned : ∀ k symbol, done[k]? = some symbol → ∃ start,
    progress.spans[base + k]? = some (start, symbol.length) ∧
      slice done.flatten start (start + symbol.length) = (.ok symbol : Result Bytes)
  unused : ∀ code, code < Fsst.numCodes → ¬ (base ≤ code ∧ code < base + done.length) →
    progress.spans[code]? = some (0, 0)

theorem stored_nil (base : Nat) :
    Stored base [] ⟨[], List.replicate Fsst.numCodes (0, 0), base, Fsst.headerLen⟩ where
  symbols := rfl
  code := rfl
  pos := rfl
  spans := List.length_replicate
  assigned := by simp
  unused := by
    intro code below _
    rw [List.getElem?_replicate, if_pos below]

theorem slice_append_left {whole after : Bytes} {start stop : Nat} {found : Bytes}
    (read : slice whole start stop = (.ok found : Result Bytes)) :
    slice (whole ++ after) start stop = (.ok found : Result Bytes) := by
  unfold slice at read
  split at read
  · rename_i inside
    rw [slice_of_le inside.1 (by rw [List.length_append]; omega), ← read,
      List.drop_append_of_le_length (by omega), List.take_append_of_le_length]
    rw [List.length_drop]
    omega
  · cases read

theorem flatten_length_le {symbols : List Bytes} (short : ∀ symbol ∈ symbols, symbol.length ≤ 8) :
    symbols.flatten.length ≤ 8 * symbols.length := by
  induction symbols with
  | nil => simp
  | cons symbol rest ih =>
    have here := short symbol (by simp)
    have later := ih fun other member => short other (by simp [member])
    simp only [List.flatten_cons, List.length_append, List.length_cons]
    omega

section Parsing

variable {front : Bytes} (trailing : Bytes) {base : Nat} {done rest : List Bytes}
  {symbol : Bytes} {progress : Progress}

/-- The symbol that is read next is the next one stored. -/
theorem slice_next (symbol : Bytes) (rest : List Bytes) (header : front.length = Fsst.headerLen)
    (stored : Stored base done progress) :
    slice (front ++ (done ++ symbol :: rest).flatten ++ trailing) progress.pos
      (progress.pos + symbol.length) = (.ok symbol : Result Bytes) := by
  have split : front ++ (done ++ symbol :: rest).flatten ++ trailing =
      (front ++ done.flatten) ++ (symbol ++ (rest.flatten ++ trailing)) := by simp
  have before : (front ++ done.flatten).length = progress.pos := by
    rw [List.length_append, header, stored.pos]
  rw [split, slice_of_le (by omega) (by simp only [List.length_append] at before ⊢; omega),
    Nat.add_sub_cancel_left]
  exact congrArg _ (field_of_split rfl before rfl)

theorem stored_snoc (room : base + done.length < Fsst.numCodes)
    (stored : Stored base done progress) :
    Stored base (done ++ [symbol])
      { symbols := progress.symbols ++ symbol
        spans := progress.spans.set progress.code (progress.symbols.length, symbol.length)
        code := progress.code + 1
        pos := progress.pos + symbol.length } where
  symbols := by simp [stored.symbols]
  code := by simp [stored.code, Nat.add_assoc]
  pos := by simp [stored.pos, Nat.add_assoc]
  spans := by simp [stored.spans]
  assigned := by
    intro k other known
    rcases Nat.lt_or_ge k done.length with old | new
    · rw [List.getElem?_append_left old] at known
      obtain ⟨start, span, read⟩ := stored.assigned k other known
      refine ⟨start, ?_, ?_⟩
      · rw [List.getElem?_set_ne (by rw [stored.code]; omega)]
        exact span
      · rw [List.flatten_append]
        exact slice_append_left read
    · have last : k = done.length := by
        have bound := (List.getElem?_eq_some_iff.mp known).1
        simp only [List.length_append, List.length_singleton] at bound
        omega
      subst last
      have same : symbol = other := by simpa using known
      subst same
      refine ⟨progress.symbols.length, ?_, ?_⟩
      · rw [← stored.code, List.getElem?_set_self (by rw [stored.spans, stored.code]; exact room)]
      · rw [stored.symbols, slice_of_le (by omega) (by simp), Nat.add_sub_cancel_left]
        simp
  unused := by
    intro code below outside
    rw [List.length_append, List.length_singleton] at outside
    rw [List.getElem?_set_ne (by rw [stored.code]; omega)]
    exact stored.unused code below (by omega)

/-- Reading one more symbol. -/
theorem stored_readSymbol (header : front.length = Fsst.headerLen)
    (fits : base + (done ++ symbol :: rest).length ≤ 255)
    (short : ∀ other ∈ done ++ symbol :: rest, other.length ≤ 8)
    (stored : Stored base done progress) :
    ∃ after, readSymbol (front ++ (done ++ symbol :: rest).flatten ++ trailing) progress
        symbol.length = .ok after ∧ Stored base (done ++ [symbol]) after := by
  have next := slice_next trailing symbol rest header stored
  have width := short symbol (by simp)
  have small := flatten_length_le fun other member => short other (List.mem_append_left _ member)
  rw [List.length_append, List.length_cons] at fits
  have room : base + done.length < Fsst.numCodes := by
    rw [Fsst.numCodes]
    omega
  refine ⟨_, ?_, stored_snoc room stored⟩
  have pos := stored.pos
  have ends : progress.pos + symbol.length < wordLimit := by
    rw [wordLimit_eq]
    rw [Fsst.headerLen] at pos
    omega
  have inside : ¬ progress.pos + symbol.length >
      (front ++ (done ++ symbol :: rest).flatten ++ trailing).length := by
    simp only [List.length_append, List.flatten_append, List.flatten_cons]
    omega
  have narrow : ¬ 2 ^ 32 ≤ progress.symbols.length := by
    rw [stored.symbols]
    omega
  rw [readSymbol, refuseIf_of_not (by rw [stored.code]; omega), ok_bind,
    checkedAddWord_of_lt ends, okOr_some, ok_bind, refuseIf_of_not inside, ok_bind]
  dsimp only
  rw [refuseIf_of_not narrow, ok_bind, next]
  rfl

theorem stored_foldlM (header : front.length = Fsst.headerLen)
    (fits : base + (done ++ rest).length ≤ 255)
    (short : ∀ other ∈ done ++ rest, other.length ≤ 8) (stored : Stored base done progress) :
    ∃ after, (rest.map List.length).foldlM
        (readSymbol (front ++ (done ++ rest).flatten ++ trailing)) progress = .ok after ∧
      Stored base (done ++ rest) after := by
  induction rest generalizing done progress with
  | nil => exact ⟨progress, rfl, by rwa [List.append_nil]⟩
  | cons symbol rest ih =>
    obtain ⟨next, read, kept⟩ := stored_readSymbol trailing header fits short stored
    have split : done ++ symbol :: rest = (done ++ [symbol]) ++ rest := by simp
    rw [split] at fits short read ⊢
    obtain ⟨after, ran, final⟩ := ih fits short kept
    exact ⟨after, by rw [List.map_cons, List.foldlM_cons, read, ok_bind, ran], final⟩

end Parsing

/-- A table whose codes from `base` on are the symbols, and whose other codes are unused. -/
structure Assigns (base : Nat) (symbols : List Bytes) (table : SymTable) : Prop where
  assigned : ∀ k symbol, symbols[k]? = some symbol →
    table.symbol (UInt8.ofNat (base + k)) = .ok symbol
  unused : ∀ code : UInt8, ¬ (base ≤ code.toNat ∧ code.toNat < base + symbols.length) →
    table.symbol code = .ok []

theorem assigns_of_stored {base : Nat} {symbols : List Bytes} {progress : Progress}
    (few : base + symbols.length ≤ 255) (stored : Stored base symbols progress)
    (zeroTerminated : Bool) :
    Assigns base symbols ⟨progress.symbols, progress.spans, zeroTerminated⟩ where
  assigned := by
    intro k symbol known
    have below := (List.getElem?_eq_some_iff.mp known).1
    obtain ⟨start, span, read⟩ := stored.assigned k symbol known
    have code : (UInt8.ofNat (base + k)).toNat = base + k := by
      rw [UInt8.toNat_ofNat']
      omega
    rw [SymTable.symbol, code, index_of_getElem? span, ok_bind, stored.symbols]
    exact read
  unused := by
    intro code outside
    have span := stored.unused code.toNat code.toNat_lt outside
    rw [SymTable.symbol, index_of_getElem? span, ok_bind]
    exact slice_of_le (Nat.le_refl 0) (Nat.zero_le _)

namespace Exported

variable (exported : Exported) (trailing : Bytes)

theorem header_length : exported.header.length = Fsst.headerLen := by
  simp [header, Fsst.headerLen]

theorem bytes_append : exported.bytes ++ trailing =
    exported.header ++ ([] ++ exported.serial).flatten ++ trailing := rfl

theorem version_bytes : field (exported.bytes ++ trailing) 4 4 = leBytes 4 Fsst.version := by
  have split : exported.bytes ++ trailing = leBytes 4 exported.low.toNat ++
      (leBytes 4 Fsst.version ++ (exported.flag :: (List.range 8).map (fun slot =>
        UInt8.ofNat (exported.count slot)) ++ exported.serial.flatten ++ trailing)) := by
    simp only [bytes, header, List.append_assoc]
  exact field_of_split split (leBytes_length ..) (leBytes_length ..)

theorem histogram_bytes : field (exported.bytes ++ trailing) 9 8 =
    (List.range 8).map fun slot => UInt8.ofNat (exported.count slot) := by
  have split : exported.bytes ++ trailing =
      (leBytes 4 exported.low.toNat ++ leBytes 4 Fsst.version ++ [exported.flag]) ++
        ((List.range 8).map (fun slot => UInt8.ofNat (exported.count slot)) ++
          (exported.serial.flatten ++ trailing)) := by
    simp only [bytes, header, List.append_assoc, List.cons_append, List.nil_append]
  exact field_of_split split (by simp) (by simp)

theorem flag_byte : (exported.bytes ++ trailing).getD 8 0 = exported.flag := by
  have before : (leBytes 4 exported.low.toNat ++ leBytes 4 Fsst.version).length = 8 := by simp
  rw [bytes, header, List.append_assoc, List.append_assoc, List.getD_eq_getElem?_getD,
    List.getElem?_append_right (Nat.le_of_eq before), before]
  rfl

/-- Each slot is read back as the number of symbols it counts, the reserved code left out. -/
theorem effective_count {slot : Nat} (known : slot ∈ slots) :
    (if exported.zeroTerminated ∧ slot = 0 then
        (((List.range 8).map fun slot => UInt8.ofNat (exported.count slot)).getD slot 0).toNat - 1
      else (((List.range 8).map fun slot => UInt8.ofNat (exported.count slot)).getD slot 0).toNat) =
      (exported.ofLen (slot + 1)).length := by
  have below : slot < 8 := by
    simp only [slots, List.mem_cons, List.not_mem_nil, or_false] at known
    omega
  have stored : (((List.range 8).map fun slot => UInt8.ofNat (exported.count slot)).getD slot
      0).toNat = exported.count slot := by
    have few := exported.count_le slot
    rw [List.getD_eq_getElem?_getD, List.getElem?_map, List.getElem?_range below]
    rw [Option.map_some, Option.getD_some, UInt8.toNat_ofNat']
    omega
  have parity := Nat.mod_lt exported.flag.toNat (Nat.two_pos)
  rw [stored, count, base]
  simp only [zeroTerminated, decide_eq_true_eq]
  by_cases first : slot = 0
  · simp only [first, and_true, if_true]
    split <;> omega
  · simp only [first, and_false, if_false, Nat.add_zero]

theorem first_code : (if exported.zeroTerminated then 1 else 0) = exported.base := by
  have parity := Nat.mod_lt exported.flag.toNat (Nat.two_pos)
  simp only [zeroTerminated, base, decide_eq_true_eq]
  split <;> omega

/-- The parser takes exactly the exported bytes, whatever follows them. -/
theorem parse_bytes : ∃ table,
    SymTable.parse (exported.bytes ++ trailing) = .ok (table, exported.bytes.length) ∧
      table.zeroTerminated = exported.zeroTerminated ∧
      Assigns exported.base exported.serial table := by
  have few : exported.base + ([] ++ exported.serial).length ≤ 255 := exported.serial_few
  obtain ⟨progress, ran, stored⟩ := stored_foldlM trailing exported.header_length few
    (fun symbol member => (exported.sized symbol (exported.serial_perm.mem_iff.mp member)).2)
    (stored_nil exported.base)
  have long : ¬ (exported.bytes ++ trailing).length < Fsst.headerLen := by
    rw [← exported.header_length, bytes]
    simp only [List.length_append]
    omega
  have used : progress.pos = exported.bytes.length := by
    rw [stored.pos, bytes, List.length_append, header_length]
    rfl
  refine ⟨⟨progress.symbols, progress.spans, exported.zeroTerminated⟩, ?_, rfl,
    assigns_of_stored few stored _⟩
  rw [parse, refuseIf_of_not long, ok_bind, version_bytes, leNat_leBytes (by decide)]
  dsimp only
  rw [refuseIf_of_not (by decide), ok_bind, flag_byte, histogram_bytes]
  have lengths := List.flatMap_congr fun slot (known : slot ∈ slots) =>
    congrArg (List.replicate · (slot + 1)) (exported.effective_count known)
  have parity : decide (exported.flag.toNat % 2 = 1) = exported.zeroTerminated := rfl
  rw [parity, lengths, first_code, ← serial_lengths, bytes_append, ran, ok_bind, used]
  rfl

end Exported

/-- How one step of a compressed string looks: a code, which is not the escape, or an escaped
byte. -/
inductive Token where
  | code (byte : UInt8) (plain : byte ≠ Fsst.esc)
  | literal (byte : UInt8)

def Token.bytes : Token → Bytes
  | .code byte _ => [byte]
  | .literal byte => [Fsst.esc, byte]

section Decoding

variable {base : Nat} {symbols : List Bytes} {table : SymTable}

theorem decode_code {code : UInt8} (plain : code ≠ Fsst.esc) {symbol : Bytes}
    (known : table.symbol code = .ok symbol) (rest : Bytes) :
    table.decode (code :: rest) =
      if symbol.isEmpty then
        fail (Fsst.decodeError s!"FSST code {Fsst.hex 4 code.toNat} references unused symbol")
      else table.decode rest >>= fun out => .ok (symbol ++ out) := by
  rw [decode.eq_def]
  simp only [if_neg plain, known, ok_bind]
  by_cases empty : symbol.isEmpty
  · rw [refuseIf_of empty, if_pos empty]
    rfl
  · rw [refuseIf_of_not empty, if_neg empty]
    rfl

theorem decode_literal (byte : UInt8) (rest : Bytes) :
    table.decode (Fsst.esc :: byte :: rest) =
      table.decode rest >>= fun out => .ok (byte :: out) := by
  rw [decode, if_pos rfl]
  rfl

/-- A string cut into symbols, named by their place in the table, and single bytes. -/
inductive Piece (symbols : List Bytes) where
  | symbol (k : Fin symbols.length)
  | literal (byte : UInt8)

def Piece.text : Piece symbols → Bytes
  | .symbol k => symbols.get k
  | .literal byte => [byte]

end Decoding

namespace Exported

variable (exported : Exported)

theorem code_plain (k : Fin exported.serial.length) : exported.code k ≠ Fsst.esc := by
  have few := exported.serial_few
  have below := k.isLt
  intro same
  have codes := congrArg UInt8.toNat same
  rw [code, UInt8.toNat_ofNat', Fsst.esc] at codes
  simp only [UInt8.reduceToNat] at codes
  omega

/-- The code or the escape that an encoder writes for a piece. -/
def token : Piece exported.serial → Token
  | .symbol k => .code (exported.code k) (exported.code_plain k)
  | .literal byte => .literal byte

theorem token_symbol (k : Fin exported.serial.length) :
    (exported.token (.symbol k)).bytes = [exported.code k] := rfl

theorem token_literal (byte : UInt8) :
    (exported.token (.literal byte)).bytes = [Fsst.esc, byte] := rfl

end Exported

section Exported

variable (exported : Exported) {table : SymTable}
  (assigns : Assigns exported.base exported.serial table)
include assigns

theorem decode_pieces (pieces : List (Piece exported.serial)) :
    table.decode (pieces.flatMap fun piece => (exported.token piece).bytes) =
      .ok (pieces.flatMap Piece.text) := by
  induction pieces with
  | nil => rw [List.flatMap_nil, List.flatMap_nil, decode]
  | cons piece rest ih =>
    rw [List.flatMap_cons, List.flatMap_cons]
    cases piece with
    | symbol k =>
      have known : table.symbol (exported.code k) = .ok (exported.serial.get k) :=
        assigns.assigned k _ (List.getElem?_eq_getElem k.isLt)
      have sized := exported.sized _ (exported.serial_perm.mem_iff.mp (List.get_mem _ k))
      have full : ¬ (exported.serial.get k).isEmpty := by
        intro empty
        rw [List.isEmpty_iff.mp empty] at sized
        exact absurd sized.1 (by decide)
      rw [exported.token_symbol, List.singleton_append, decode_code (exported.code_plain k) known,
        if_neg full, ih]
      rfl
    | literal byte =>
      rw [exported.token_literal, List.cons_append, List.singleton_append, decode_literal, ih]
      rfl

/-- What a code stands for: its symbol, or nothing. -/
theorem symbol_known (code : UInt8) : ∃ symbol, table.symbol code = .ok symbol ∧
    (exported.Unassigned code → symbol = []) := by
  by_cases inside : exported.base ≤ code.toNat ∧ code.toNat < exported.base + exported.serial.length
  · obtain ⟨low, high⟩ := inside
    have below : code.toNat - exported.base < exported.serial.length := by omega
    have known := assigns.assigned _ _ (List.getElem?_eq_getElem below)
    rw [Nat.add_sub_cancel' low, UInt8.ofNat_toNat] at known
    exact ⟨_, known, fun unassigned => absurd ⟨low, high⟩ unassigned⟩
  · exact ⟨[], assigns.unused code inside, fun _ => rfl⟩

/-- A tail that is refused is refused after any tokens. -/
theorem decode_refuses {tail : Bytes} (refused : ∃ reason, table.decode tail = fail reason)
    (tokens : List Token) :
    ∃ reason, table.decode (tokens.flatMap Token.bytes ++ tail) = fail reason := by
  induction tokens with
  | nil => exact refused
  | cons token rest ih =>
    obtain ⟨reason, failed⟩ := ih
    rw [List.flatMap_cons, List.append_assoc]
    cases token with
    | code byte plain =>
      obtain ⟨symbol, known, _⟩ := symbol_known exported assigns byte
      rw [Token.bytes, List.singleton_append, decode_code plain known, failed]
      by_cases empty : symbol.isEmpty
      · exact ⟨_, if_pos empty⟩
      · exact ⟨reason, if_neg empty⟩
    | literal byte =>
      refine ⟨reason, ?_⟩
      rw [Token.bytes, List.cons_append, List.singleton_append, decode_literal, failed]
      rfl

theorem decode_unassigned {byte : UInt8} (plain : byte ≠ Fsst.esc)
    (unassigned : exported.Unassigned byte) (rest : Bytes) :
    ∃ reason, table.decode (byte :: rest) = fail reason := by
  obtain ⟨symbol, known, empty⟩ := symbol_known exported assigns byte
  rw [decode_code plain known, empty unassigned]
  exact ⟨_, rfl⟩

end Exported

/-- Parsing an exported table takes its bytes and assigns the codes in the stored order;
decoding undoes every encoding and refuses unassigned codes and a bare escape at the end. -/
theorem fsst_codec (exported : Exported) (trailing : Bytes) :
    ∃ table, SymTable.parse (exported.bytes ++ trailing) = .ok (table, exported.bytes.length) ∧
      table.zeroTerminated = exported.zeroTerminated ∧
      Assigns exported.base exported.serial table ∧
      (∀ pieces : List (Piece exported.serial),
        table.decode (pieces.flatMap fun piece => (exported.token piece).bytes) =
          .ok (pieces.flatMap Piece.text)) ∧
      (∀ (tokens : List Token) (byte : UInt8) (plain : byte ≠ Fsst.esc) (rest : Bytes),
        .code byte plain ∈ tokens → exported.Unassigned byte →
          ∃ reason, table.decode (tokens.flatMap Token.bytes ++ rest) = fail reason) ∧
      ∀ tokens : List Token,
        ∃ reason, table.decode (tokens.flatMap Token.bytes ++ [Fsst.esc]) = fail reason := by
  obtain ⟨table, parsed, mode, assigns⟩ := exported.parse_bytes trailing
  refine ⟨table, parsed, mode, assigns, decode_pieces exported assigns, ?_, ?_⟩
  · intro tokens byte plain rest member unassigned
    obtain ⟨before, after, rfl⟩ := List.append_of_mem member
    rw [List.flatMap_append, List.append_assoc, List.flatMap_cons, Token.bytes,
      List.append_assoc, List.singleton_append]
    exact decode_refuses exported assigns (decode_unassigned exported assigns plain unassigned _)
      before
  · intro tokens
    apply decode_refuses exported assigns ?_ tokens
    exact ⟨_, by rw [decode, if_pos rfl]⟩

/-- The worked example of the format: `FS`, `war`, `!` and `D`. -/
def dwarfs : Exported where
  low := 0x401
  flag := 0
  symbols := [[0x46, 0x53], [0x77, 0x61, 0x72], [0x21], [0x44]]
  sized := by decide
  few := by decide

example : dwarfs.bytes =
    [0x01, 0x04, 0x00, 0x00, 0x0A, 0x14, 0x34, 0x01, 0x00, 2, 1, 1, 0, 0, 0, 0, 0,
      0x46, 0x53, 0x77, 0x61, 0x72, 0x21, 0x44] := by decide

end Rdwarfs.Guarantees.FsstCodec
