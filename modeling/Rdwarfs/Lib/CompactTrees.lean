import Rdwarfs.Lib.Compact

/-!
# Values of the compact encoding

A value of any kind, as a tree that only well-typed values inhabit: the items of a list are all of
its element kind, and the fields of a struct follow one another by their ids. What the encoding
leaves to its writer is part of the tree: whether a short list has the long header, whether a
field id is written out, what byte stands for a boolean in a container. Every tree is written as
the grammar says.
-/
namespace Rdwarfs.Lib.Compact

/-- The parts of an encoding, with what they encode. -/
inductive Tree : Part → Type
  | boolTrue : Tree (.value .boolTrue)
  | boolFalse : Tree (.value .boolFalse)
  | i8 (n : Int8) : Tree (.value .i8)
  | i16 (n : Int16) : Tree (.value .i16)
  | i32 (n : Int32) : Tree (.value .i32)
  | i64 (n : Int64) : Tree (.value .i64)
  | double (bits : UInt64) : Tree (.value .double)
  | binary (data : List UInt8) (word : data.length < 2 ^ 64) : Tree (.value .binary)
  | list {kind element : Kind} {count : Nat} (container : kind = .list ∨ kind = .set) (long : Bool)
      (counted : count < 2 ^ 32) (items : Tree (.elements element count)) : Tree (.value kind)
  | map {key value : Kind} {count : Nat} (counted : count < 2 ^ 32)
      (entries : Tree (.pairs key value count)) : Tree (.value .map)
  | struct (fields : Tree (.fields 0)) : Tree (.value .struct)
  | flag {kind : Kind} (isBool : kind.isBool) (byte : UInt8) : Tree (.element kind)
  | element {kind : Kind} (other : ¬ kind.isBool) (value : Tree (.value kind)) :
      Tree (.element kind)
  | noElements {kind : Kind} : Tree (.elements kind 0)
  | elements {kind : Kind} {count : Nat} (head : Tree (.element kind))
      (tail : Tree (.elements kind count)) : Tree (.elements kind (count + 1))
  | noPairs {key value : Kind} : Tree (.pairs key value 0)
  | pairs {key value : Kind} {count : Nat} (left : Tree (.element key))
      (right : Tree (.element value)) (tail : Tree (.pairs key value count)) :
      Tree (.pairs key value (count + 1))
  | stop {last : Int16} : Tree (.fields last)
  | field {last : Int16} {kind : Kind} (id : Int16) (explicit : Bool) (value : Tree (.value kind))
      (tail : Tree (.fields id)) : Tree (.fields last)

section Writing

/-- Fifteen elements and more need the long header. -/
def listHead (element : Kind) (count : Nat) (long : Bool) : List UInt8 :=
  if long = true ∨ 15 ≤ count then element.packed 15 :: leb count else [element.packed count]

def mapHead (key value : Kind) (count : Nat) : List UInt8 :=
  if count = 0 then leb 0 else leb count ++ [value.packed key.code]

/-- An id that is not one to fifteen above the last has to be written out. -/
def fieldHead (last : Int16) (kind : Kind) (id : Int16) (explicit : Bool) : List UInt8 :=
  let gap := id.toInt - last.toInt
  if explicit = true ∨ gap < 1 ∨ 15 < gap then kind.packed 0 :: leb (zigzag id.toInt)
  else [kind.packed gap.toNat]

/-- The eight bytes of a word, lowest first. -/
def wordBytes (word : UInt64) : List UInt8 :=
  (List.range 8).map fun i => UInt8.ofNat (word.toNat / 256 ^ i)

def Tree.encode : {part : Part} → Tree part → List UInt8
  | _, .boolTrue | _, .boolFalse => []
  | _, .i8 n => [n.toUInt8]
  | _, .i16 n => leb (zigzag n.toInt)
  | _, .i32 n => leb (zigzag n.toInt)
  | _, .i64 n => leb (zigzag n.toInt)
  | _, .double bits => wordBytes bits
  | _, .binary data _ => leb data.length ++ data
  | _, @Tree.list _ item count _ long _ items => listHead item count long ++ items.encode
  | _, @Tree.map key value count _ entries => mapHead key value count ++ entries.encode
  | _, .struct fields => fields.encode
  | _, .flag _ byte => [byte]
  | _, .element _ value => value.encode
  | _, .noElements => []
  | _, .elements head tail => head.encode ++ tail.encode
  | _, .noPairs => []
  | _, .pairs left right tail => left.encode ++ (right.encode ++ tail.encode)
  | _, .stop => [0]
  | _, @Tree.field last kind id explicit value tail =>
    fieldHead last kind id explicit ++ (value.encode ++ tail.encode)

end Writing

section Grammar

theorem zigzag_word {n : Int} (least : -(2 ^ 63) ≤ n) (most : n < 2 ^ 63) : zigzag n < 2 ^ 64 := by
  unfold zigzag
  split <;> omega

theorem listHead_written {element : Kind} {count : Nat} (counted : count < 2 ^ 32) (long : Bool) :
    ListHead element count (listHead element count long) := by
  unfold listHead
  split
  · exact .long counted (varint_leb (Nat.lt_trans counted (by decide)))
  · next short => exact .short (Nat.lt_of_not_le fun many => short (Or.inr many))

theorem mapHead_written {key value : Kind} {count : Nat} (counted : count < 2 ^ 32) :
    MapHead key value count (mapHead key value count) := by
  unfold mapHead
  split
  · next none_ =>
    subst none_
    exact .empty (varint_leb (by decide))
  · next some =>
    exact .typed (Nat.pos_of_ne_zero some) counted (varint_leb (Nat.lt_trans counted (by decide)))

theorem fieldHead_written (last : Int16) (kind : Kind) (id : Int16) (explicit : Bool) :
    FieldHead last kind id (fieldHead last kind id explicit) := by
  have least := id.le_toInt
  have most := id.toInt_lt
  unfold fieldHead
  dsimp only
  split
  · exact .explicit ⟨least, most, varint_leb (zigzag_word (by omega) (by omega))⟩
  · next gap => exact .gap _ (by omega) (by omega) (by omega)

theorem Tree.encoded {part : Part} (tree : Tree part) : Encoded part tree.encode := by
  induction tree with
  | boolTrue => exact .bool (Or.inl rfl)
  | boolFalse => exact .bool (Or.inr rfl)
  | i8 n => exact .i8 n.toUInt8
  | i16 n =>
    have least := n.le_toInt
    have most := n.toInt_lt
    exact .i16 ⟨least, most, varint_leb (zigzag_word (by omega) (by omega))⟩
  | i32 n =>
    have least := n.le_toInt
    have most := n.toInt_lt
    exact .i32 ⟨least, most, varint_leb (zigzag_word (by omega) (by omega))⟩
  | i64 n => exact .i64 ⟨n.le_toInt, n.toInt_lt, varint_leb (zigzag_word n.le_toInt n.toInt_lt)⟩
  | double bits => exact .double (by simp [encode, wordBytes])
  | binary data word => exact .binary ⟨_, varint_leb word, rfl⟩
  | list container long counted _ ih => exact .list container (listHead_written counted long) ih
  | map counted _ ih => exact .map (mapHead_written counted) ih
  | struct _ ih => exact .struct ih
  | flag isBool byte => exact .flag isBool byte
  | element other _ ih => exact .element other ih
  | noElements => exact .noElements
  | elements _ _ ihHead ihTail => exact .elements ihHead ihTail
  | noPairs => exact .noPairs
  | pairs _ _ _ ihLeft ihRight ihTail => exact .pairs ihLeft ihRight ihTail
  | stop => exact .stop
  | field id explicit _ _ ihValue ihTail =>
    exact .field (fieldHead_written _ _ id explicit) ihValue ihTail

end Grammar

end Rdwarfs.Lib.Compact
