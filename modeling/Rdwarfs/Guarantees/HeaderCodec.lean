import Rdwarfs.Source.Format.Header

/-!
# Section headers are their bytes

Parsing and writing are inverse to each other: on the 64-byte strings that parse, and on the
headers of a supported version whose codes are the ones their numbers stand for.
-/
namespace Rdwarfs.Guarantees.HeaderCodec

open Lib.Machine Source Source.Format

/-- An `unknown` type is none of the known ones. -/
def CanonicalType (sectionType : SectionType) : Prop :=
  ∀ value, sectionType = .unknown value → value ∉ [0, 7, 8, 9, 10]

def CanonicalCompression (compression : Compression) : Prop :=
  ∀ value, compression = .unknown value → value ∉ [0, 1, 2, 3, 4, 5, 6, 7]

theorem fromU16_asU16 {sectionType : SectionType} (canonical : CanonicalType sectionType) :
    SectionType.fromU16 sectionType.asU16 = sectionType := by
  cases sectionType with
  | unknown value =>
    have other := canonical value rfl
    simp only [List.mem_cons, List.not_mem_nil, or_false, not_or] at other
    simp [SectionType.asU16, SectionType.fromU16, other]
  | _ => rfl

theorem compression_fromU16_asU16 {compression : Compression}
    (canonical : CanonicalCompression compression) :
    Compression.fromU16 compression.asU16 = compression := by
  cases compression with
  | unknown value =>
    have other := canonical value rfl
    simp only [List.mem_cons, List.not_mem_nil, or_false, not_or] at other
    simp [Compression.asU16, Compression.fromU16, other]
  | _ => rfl

/-- What a caller may write: the hash has its 32 bytes, and the reader knows the version. -/
structure Writable (header : SectionHeader) : Prop where
  hash : header.sha512_256.length = 32
  major : header.major = 2
  minor : header.minor ≤ 6
  sectionType : CanonicalType header.sectionType
  compression : CanonicalCompression header.compression

/-- The header that a 64-byte string with the magic and a supported version holds. -/
def held (bytes : Bytes) : SectionHeader where
  major := bytes.getD 6 0
  minor := bytes.getD 7 0
  sha512_256 := field bytes 0x08 32
  xxh3_64 := UInt64.ofNat (leNat (field bytes 0x28 8))
  number := UInt32.ofNat (leNat (field bytes 0x30 4))
  sectionType := .fromU16 (UInt16.ofNat (leNat (field bytes 0x34 2)))
  compression := .fromU16 (UInt16.ofNat (leNat (field bytes 0x36 2)))
  payloadLen := UInt64.ofNat (leNat (field bytes 0x38 8))

theorem parse_eq_ok {bytes : Bytes} {offset : Nat} {header : SectionHeader} :
    SectionHeader.parse bytes offset = .ok header ↔
      headerLen ≤ bytes.length ∧ field bytes 0 magicLen = magic ∧
        (bytes.getD 6 0 = 2 ∧ bytes.getD 7 0 ≤ 6) ∧ header = held bytes := by
  unfold SectionHeader.parse
  dsimp only
  by_cases short : bytes.length < headerLen
  · rw [if_pos short]
    simp [Nat.not_le.mpr short]
  rw [if_neg short]
  by_cases isMagic : field bytes 0 magicLen = magic
  · rw [if_neg (by simp [isMagic])]
    by_cases unsupported : bytes.getD 6 0 ≠ supportedMajor ∨ bytes.getD 7 0 > supportedMinor
    · rw [if_pos unsupported]
      simp only [reduceCtorEq, false_iff, not_and]
      intro _ _ supported
      rcases unsupported with major | minor
      · exact absurd supported.1 major
      · exact absurd supported.2 (UInt8.not_le.mpr minor)
    · rw [if_neg unsupported]
      obtain ⟨major, minor⟩ := not_or.mp unsupported
      have supported : bytes.getD 6 0 = 2 ∧ bytes.getD 7 0 ≤ 6 :=
        ⟨Classical.not_not.mp major, UInt8.not_lt.mp minor⟩
      constructor
      · intro parsed
        cases parsed
        exact ⟨Nat.le_of_not_lt short, isMagic, supported, rfl⟩
      · rintro ⟨-, -, -, rfl⟩
        rfl
  · rw [if_pos isMagic]
    simp [isMagic]

section Written

variable {bytes : Bytes}

theorem leBytes_field {offset width : Nat} (inside : offset + width ≤ bytes.length) :
    leBytes width (leNat (field bytes offset width)) = field bytes offset width := by
  have whole := leBytes_leNat (field bytes offset width)
  rwa [field_length inside] at whole

theorem leNat_field_lt (bytes : Bytes) {offset width limit : Nat}
    (inside : offset + width ≤ bytes.length) (fits : 256 ^ width ≤ limit) :
    leNat (field bytes offset width) < limit := by
  have bound := leNat_lt (field bytes offset width)
  rw [field_length inside] at bound
  exact Nat.lt_of_lt_of_le bound fits

theorem field_two {offset : Nat} (inside : offset + 2 ≤ bytes.length) :
    [bytes.getD offset 0, bytes.getD (offset + 1) 0] = field bytes offset 2 := by
  have first : bytes.getD offset 0 = bytes[offset] := by
    rw [List.getD_eq_getElem?_getD, List.getElem?_eq_getElem (by omega), Option.getD_some]
  have second : bytes.getD (offset + 1) 0 = bytes[offset + 1] := by
    rw [List.getD_eq_getElem?_getD, List.getElem?_eq_getElem (by omega), Option.getD_some]
  rw [field, first, second, List.drop_eq_getElem_cons (by omega),
    List.drop_eq_getElem_cons (by omega)]
  rfl

/-- Nine fields side by side are the whole header. -/
theorem write_held (long : bytes.length = headerLen) (isMagic : field bytes 0 magicLen = magic) :
    (held bytes).write = bytes := by
  simp only [headerLen] at long
  have xxh := leNat_field_lt bytes (show 0x28 + 8 ≤ bytes.length by omega)
    (show 256 ^ 8 ≤ 2 ^ 64 by decide)
  have number := leNat_field_lt bytes (show 0x30 + 4 ≤ bytes.length by omega)
    (show 256 ^ 4 ≤ 2 ^ 32 by decide)
  have sectionType := leNat_field_lt bytes (show 0x34 + 2 ≤ bytes.length by omega)
    (show 256 ^ 2 ≤ 2 ^ 16 by decide)
  have compression := leNat_field_lt bytes (show 0x36 + 2 ≤ bytes.length by omega)
    (show 256 ^ 2 ≤ 2 ^ 16 by decide)
  have payloadLen := leNat_field_lt bytes (show 0x38 + 8 ≤ bytes.length by omega)
    (show 256 ^ 8 ≤ 2 ^ 64 by decide)
  have versions := @field_two bytes 6 (by omega)
  simp only [SectionHeader.write, held, SectionType.asU16_fromU16, Compression.asU16_fromU16,
    UInt64.toNat_ofNat', UInt32.toNat_ofNat', UInt16.toNat_ofNat']
  rw [Nat.mod_eq_of_lt xxh, Nat.mod_eq_of_lt number, Nat.mod_eq_of_lt sectionType,
    Nat.mod_eq_of_lt compression, Nat.mod_eq_of_lt payloadLen, leBytes_field (by omega),
    leBytes_field (by omega), leBytes_field (by omega), leBytes_field (by omega),
    leBytes_field (by omega), versions, ← isMagic, magicLen]
  rw [field_append bytes 0 6 2, field_append bytes 0 8 32, field_append bytes 0 0x28 8,
    field_append bytes 0 0x30 4, field_append bytes 0 0x34 2, field_append bytes 0 0x36 2,
    field_append bytes 0 0x38 8]
  exact List.take_of_length_le (by rw [List.drop_zero]; omega)

variable {header : SectionHeader}

theorem write_length (hash : header.sha512_256.length = 32) : header.write.length = headerLen := by
  simp [SectionHeader.write, magic, headerLen, hash]

theorem field_flatten {pieces : List Bytes} {k offset width : Nat} {mid : Bytes}
    (at_ : pieces[k]? = some mid) (before : (pieces.take k).flatten.length = offset)
    (long : mid.length = width) : field pieces.flatten offset width = mid := by
  obtain ⟨inside, same⟩ := List.getElem?_eq_some_iff.mp at_
  have split : pieces = pieces.take k ++ mid :: pieces.drop (k + 1) := by
    rw [← same, List.getElem_cons_drop, List.take_append_drop]
  apply field_of_split _ before long
  · exact (pieces.drop (k + 1)).flatten
  · conv => lhs; rw [split]
    rw [List.flatten_append, List.flatten_cons]

/-- What `write` puts side by side. -/
def pieces (header : SectionHeader) : List Bytes :=
  [magic, [header.major, header.minor], header.sha512_256, leBytes 8 header.xxh3_64.toNat,
    leBytes 4 header.number.toNat, leBytes 2 header.sectionType.asU16.toNat,
    leBytes 2 header.compression.asU16.toNat, leBytes 8 header.payloadLen.toNat]

theorem write_eq_flatten (header : SectionHeader) : header.write = (pieces header).flatten := by
  simp [SectionHeader.write, pieces]

theorem field_write (k : Nat) {offset width : Nat} {mid : Bytes}
    (at_ : (pieces header)[k]? = some mid)
    (before : (((pieces header).take k).map List.length).sum = offset)
    (long : mid.length = width) : field header.write offset width = mid := by
  rw [write_eq_flatten]
  apply field_flatten at_ _ long
  rw [List.length_flatten, before]

/-- Each range read back is what `write` put there. -/
theorem held_write (writable : Writable header) : held header.write = header := by
  have hash := writable.hash
  have major : header.write.getD 6 0 = header.major := by rw [write_eq_flatten]; rfl
  have minor : header.write.getD 7 0 = header.minor := by rw [write_eq_flatten]; rfl
  have before (k : Nat) : ((pieces header).take k).map List.length =
      [6, 2, 32, 8, 4, 2, 2, 8].take k := by
    rw [List.map_take]
    simp [pieces, magic, hash]
  have sha : field header.write 0x08 32 = header.sha512_256 :=
    field_write 2 rfl (by rw [before]; rfl) hash
  have xxh : field header.write 0x28 8 = leBytes 8 header.xxh3_64.toNat :=
    field_write 3 rfl (by rw [before]; rfl) (leBytes_length _ _)
  have number : field header.write 0x30 4 = leBytes 4 header.number.toNat :=
    field_write 4 rfl (by rw [before]; rfl) (leBytes_length _ _)
  have sectionType : field header.write 0x34 2 = leBytes 2 header.sectionType.asU16.toNat :=
    field_write 5 rfl (by rw [before]; rfl) (leBytes_length _ _)
  have compression : field header.write 0x36 2 = leBytes 2 header.compression.asU16.toNat :=
    field_write 6 rfl (by rw [before]; rfl) (leBytes_length _ _)
  have payloadLen : field header.write 0x38 8 = leBytes 8 header.payloadLen.toNat :=
    field_write 7 rfl (by rw [before]; rfl) (leBytes_length _ _)
  unfold held
  rw [major, minor, sha, xxh, number, sectionType, compression, payloadLen,
    leNat_leBytes (UInt64.toNat_lt _), leNat_leBytes (UInt32.toNat_lt _),
    leNat_leBytes (UInt16.toNat_lt _), leNat_leBytes (UInt16.toNat_lt _),
    leNat_leBytes (UInt64.toNat_lt _), UInt64.ofNat_toNat, UInt32.ofNat_toNat, UInt16.ofNat_toNat,
    UInt16.ofNat_toNat, UInt64.ofNat_toNat, fromU16_asU16 writable.sectionType,
    compression_fromU16_asU16 writable.compression]

theorem parse_write (writable : Writable header) (offset : Nat) :
    SectionHeader.parse header.write offset = .ok header := by
  have same := held_write writable
  have isMagic : field header.write 0 magicLen = magic := by
    rw [write_eq_flatten]
    rfl
  have major : (held header.write).major = header.major := by rw [same]
  have minor : (held header.write).minor ≤ 6 := by
    rw [same]
    exact writable.minor
  apply parse_eq_ok.mpr
  refine ⟨Nat.le_of_eq (write_length writable.hash).symm, isMagic, ?_, same.symm⟩
  exact ⟨major.trans writable.major, minor⟩

end Written

/-- Parsing and writing are inverse, and a 64-byte string that does not parse is told apart by
its magic or its version. -/
theorem header_codec :
    (∀ (bytes : Bytes) (offset : Nat) (header : SectionHeader), bytes.length = headerLen →
      SectionHeader.parse bytes offset = .ok header → header.write = bytes) ∧
    (∀ (header : SectionHeader) (offset : Nat), Writable header →
      SectionHeader.parse header.write offset = .ok header) ∧
    ∀ (bytes : Bytes) (offset : Nat), bytes.length = headerLen →
      (∀ header, SectionHeader.parse bytes offset ≠ .ok header) →
      SectionHeader.parse bytes offset = fail (.badMagic offset) ∨
        SectionHeader.parse bytes offset =
          fail (.unsupportedVersion (bytes.getD 6 0) (bytes.getD 7 0)) := by
  refine ⟨?_, ?_, ?_⟩
  · intro bytes offset header long parsed
    obtain ⟨-, isMagic, -, rfl⟩ := parse_eq_ok.mp parsed
    exact write_held long isMagic
  · intro header offset writable
    exact parse_write writable offset
  · intro bytes offset long refused
    by_cases isMagic : field bytes 0 magicLen = magic
    · rcases @SectionHeader.parse_of_magic bytes offset (Nat.le_of_eq long.symm) isMagic with
        ⟨header, parsed⟩ | version
      · exact absurd parsed (refused header)
      · exact Or.inr version
    · apply Or.inl
      unfold SectionHeader.parse
      rw [if_neg (by omega), if_pos isMagic]

/-- The header of the source's own round trip. -/
def sample : SectionHeader where
  major := 2
  minor := 5
  sha512_256 := List.replicate 32 0xAB
  xxh3_64 := 0x0123456789ABCDEF
  number := 7
  sectionType := .metadataV2
  compression := .zstd
  payloadLen := 1024

theorem sample_writable : Writable sample where
  hash := rfl
  major := rfl
  minor := by decide
  sectionType := by
    intro value same
    cases same
  compression := by
    intro value same
    cases same

theorem header_codec_sample :
    SectionHeader.parse sample.write 0 = .ok sample ∧
      (∀ header, SectionHeader.parse sample.write 9 = .ok header → header.write = sample.write) ∧
      SectionHeader.parse (List.replicate 64 0) 42 = fail (.badMagic 42) := by
  refine ⟨header_codec.2.1 sample 0 sample_writable, fun header parsed =>
    header_codec.1 sample.write 9 header (write_length rfl) parsed, ?_⟩
  have refused : SectionHeader.parse (List.replicate 64 0) 42 = fail (.badMagic 42) := by decide
  have none_ : ∀ header, SectionHeader.parse (List.replicate 64 0) 42 ≠ .ok header := by
    intro header parsed
    rw [refused] at parsed
    cases parsed
  rcases header_codec.2.2 (List.replicate 64 0) 42 rfl none_ with magic | version
  · exact magic
  · exact refused

end Rdwarfs.Guarantees.HeaderCodec
