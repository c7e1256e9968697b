import Rdwarfs.Guarantees.FirstSection
import Rdwarfs.Guarantees.HeaderCodec
import Rdwarfs.Guarantees.SameSections
import Rdwarfs.Guarantees.SectionTiling
import Rdwarfs.Guarantees.WindowedSources
import Rdwarfs.Source.Opening

/-!
# One image, however it is opened

An image found behind a prefix opens again without searching: at its offset, from a source of
either kind. What comes out has the same sections, each nearer by the bytes cut off, and is the
same filesystem.
-/
namespace Rdwarfs.Guarantees.ReopenedImages

open Lib.Machine Lib.Scan Lib.Scan.Verdict Source Source.Format Source.Fs Source.Codecs ImageSource
open DetectEquivalence FirstSection SameSections WindowedSources SectionTiling

/-- A section without the `cut` bytes in front of it. -/
def nearer (cut : Nat) (record : SectionRecord) : SectionRecord :=
  { record with fileOffset := record.fileOffset - cut }

def indexNearer (cut : Nat) (index : SectionIndex) : SectionIndex :=
  { index with fileOffset := index.fileOffset - cut }

/-- `other` is `one` without its first `cut` bytes. -/
structure Reopened (cut : Nat) (one other : Image) : Prop where
  base : other.baseOffset = one.baseOffset - cut
  sections : other.sections = one.sections.map (nearer cut)
  sectionIndex : other.sectionIndex = one.sectionIndex.map (indexNearer cut)
  alike : Alike one other

section Detection

theorem detectIn_file (build : Build) (bytes : Bytes) :
    detectBaseOffsetIn build (ofFile bytes) =
      if bytes.length < headerLen then fail .notADwarfsImage
      else detectWindows build (ofFile bytes) 0 none := rfl

variable {build : Build} {hold : Bytes → ImageSource} (held : Held hold) {bytes : Bytes}
  (fits : bytes.length < sliceLimit)

include held fits

/-- Either scanner returns a least position where a section begins. -/
theorem detected_begins {base : Nat} (detected : detectBaseOffsetIn build (hold bytes) = .ok base) :
    Begins bytes base ∧ ∀ c < base, ¬ Begins bytes c := by
  rw [← detects_iff fits]
  cases held with
  | memory => exact detected
  | file =>
    have serves := serves_ofFile fits
    rw [detectIn_file] at detected
    unfold detectBaseOffset
    by_cases short : bytes.length < headerLen
    · rw [if_pos short] at detected
      cases detected
    · have long := Nat.le_of_not_lt short
      rw [if_neg short] at detected ⊢
      rw [detectWindows_eq_scan long build serves, scan_eq_ok] at detected
      obtain ⟨-, inside, isHit, before⟩ := detected
      have room : ∀ i, i ≤ base → i + headerLen ≤ bytes.length := by
        intro i le
        simp only [lastHeaderStart] at inside
        omega
      have apart : ∀ i, i ≤ base →
          (∀ failure, verdict bytes (sourceFollowsASectionBoundary build (ofFile bytes)) i ≠
            .stop failure) → ¬ Overhangs bytes i := by
        intro i le noStop overhang
        obtain ⟨failure, stops, -⟩ := verdict_of_overhangs build fits serves (room i le) overhang
        exact noStop failure stops
      rw [detectFrom_eq_scan long, scan_eq_ok]
      refine ⟨Nat.zero_le _, inside, ?_, ?_⟩
      · rw [← verdict_eq_of_not_overhangs build serves (apart base (Nat.le_refl _) (by simp [isHit]))]
        exact isHit
      · intro i from_ lt
        have quiet := before i from_ lt
        rw [← verdict_eq_of_not_overhangs build serves (apart i (Nat.le_of_lt lt) ?_)]
        · exact quiet
        · intro failure stops
          rw [stops] at quiet
          exact quiet

/-- A section right at the start is found at once, in a build of either kind. -/
theorem detect_start (begins : Begins bytes 0) : detectBaseOffsetIn build (hold bytes) = .ok 0 := by
  have inside := begins.1
  cases held with
  | memory => exact (detects_iff fits 0).mpr ⟨begins, fun c lt => absurd lt (Nat.not_lt_zero c)⟩
  | file =>
    have serves := serves_ofFile fits
    have long : headerLen ≤ bytes.length := by omega
    have apart : ¬ Overhangs bytes 0 := by
      intro overhang
      obtain ⟨header, parsed, -, overrun⟩ := overhang
      obtain ⟨-, header', parsed', boundary⟩ := begins
      rw [parsed] at parsed'
      cases parsed'
      have bound : headerLen + header.payloadLen.toNat ≤ bytes.length := by
        cases boundary with
        | inl atEnd => omega
        | inr isMagic =>
          have whole := bound_of_magic isMagic
          omega
      rw [SectionHeader.sectionLen_eq, wordLimit_eq] at overrun
      rw [sliceLimit_eq] at fits
      simp only [headerLen, magicLen] at bound overrun
      omega
    rw [detectIn_file, if_neg (Nat.not_lt.mpr long), detectWindows_eq_scan long build serves,
      scan_eq_ok]
    refine ⟨Nat.le_refl 0, by omega, ?_, fun i _ lt => absurd lt (Nat.not_lt_zero i)⟩
    rw [verdict_eq_of_not_overhangs build serves apart]
    exact verdict_slice_eq_hit.mpr ((accepts_iff fits inside).mpr begins)

end Detection

theorem parse_moved {bytes : Bytes} {here there : Nat} {header : SectionHeader}
    (parsed : SectionHeader.parse bytes here = .ok header) :
    SectionHeader.parse bytes there = .ok header :=
  HeaderCodec.parse_eq_ok.mpr (HeaderCodec.parse_eq_ok.mp parsed)

/-- `bytes` without the first `cut` of them. -/
def rest (bytes : Bytes) (cut : Nat) : Bytes := field bytes cut (bytes.length - cut)

section Cut

variable {bytes : Bytes} {cut : Nat} (within : cut ≤ bytes.length)

include within

theorem rest_length : (rest bytes cut).length = bytes.length - cut := field_length (by omega)

/-- What lies in the rest of the bytes, seen from either end. -/
theorem field_rest {here width : Nat} (inside : cut + here + width ≤ bytes.length) :
    field (rest bytes cut) here width = field bytes (cut + here) width :=
  field_field (by omega)

theorem begins_rest {c : Nat} : Begins (rest bytes cut) c ↔ Begins bytes (cut + c) := by
  have length := rest_length within
  unfold Begins
  rw [length]
  constructor
  · intro begins
    obtain ⟨room, header, parsed, boundary⟩ := begins
    rw [field_rest within (by omega)] at parsed
    refine ⟨by omega, header, parse_moved parsed, ?_⟩
    cases boundary with
    | inl atEnd => exact Or.inl (by omega)
    | inr isMagic =>
      have whole := bound_of_magic isMagic
      rw [length] at whole
      rw [field_rest within (by omega)] at isMagic
      exact Or.inr (by simpa only [Nat.add_assoc] using isMagic)
  · intro begins
    obtain ⟨room, header, parsed, boundary⟩ := begins
    rw [← field_rest within room] at parsed
    refine ⟨by omega, header, parse_moved parsed, ?_⟩
    cases boundary with
    | inl atEnd => exact Or.inl (by omega)
    | inr isMagic =>
      have whole := bound_of_magic isMagic
      rw [field_rest within (by omega)]
      exact Or.inr (by simpa only [Nat.add_assoc] using isMagic)

theorem sectionAt_rest {here : Nat} {header : SectionHeader}
    (read : sectionAt bytes (cut + here) = .ok header) :
    sectionAt (rest bytes cut) here = .ok header := by
  have whole := sectionAt_eq_ok read
  have length := rest_length within
  unfold sectionAt at read ⊢
  simp only [bind_eq_ok] at read
  obtain ⟨_, -, parsed, isHeader, _, -, same⟩ := read
  cases same
  rw [← field_rest within (by omega)] at isHeader
  rw [refuseIf_of_not (by omega), ok_bind, parse_moved isHeader, ok_bind,
    refuseIf_of_not (by omega), ok_bind]

end Cut

section Walk

variable {build build' : Build} {source source' : ImageSource} {bytes : Bytes} {cut : Nat}
  (serves : source.Serves bytes) (fits : bytes.length < sliceLimit) (within : cut ≤ bytes.length)
  (serves' : source'.Serves (rest bytes cut))

include serves fits within serves'

theorem walk_rest {here : Nat} {records : List SectionRecord} (inside : cut + here ≤ bytes.length)
    (walked : walkSections build source (cut + here) = .ok records) :
    walkSections build' source' here = .ok (records.map (nearer cut)) := by
  have length := rest_length within
  have fits' : (rest bytes cut).length < sliceLimit := by omega
  induction records generalizing here with
  | nil =>
    have ended : bytes.length ≤ cut + here := by
      by_contra more
      rw [walkSections_step serves fits (Nat.lt_of_not_le more)] at walked
      simp only [bind_eq_ok] at walked
      obtain ⟨_, -, _, -, impossible⟩ := walked
      cases impossible
    rw [walkSections_spent serves' (by omega)]
    rfl
  | cons record rest ih =>
    have more : cut + here < bytes.length := by
      by_contra spent
      rw [walkSections_spent serves (Nat.le_of_not_lt spent)] at walked
      cases walked
    rw [walkSections_step serves fits more] at walked
    simp only [bind_eq_ok] at walked
    obtain ⟨header, read, later, walked, same⟩ := walked
    cases same
    have whole := sectionAt_eq_ok read
    rw [Nat.add_assoc] at walked whole
    rw [walkSections_step serves' fits' (by omega), sectionAt_rest within read, ok_bind,
      ih whole walked, ok_bind, List.map_cons, nearer]
    simp only [Nat.add_sub_cancel_left]

end Walk

section Index

/-- The bytes at `here` are an uncompressed index that ends the image. -/
structure IndexAt (bytes : Bytes) (here : Nat) (index : SectionIndex) (header : SectionHeader) :
    Prop where
  room : here + headerLen ≤ bytes.length
  parsed : SectionHeader.parse (field bytes here headerLen) here = .ok header
  sectionType : header.sectionType = .sectionIndex
  compression : header.compression = .none
  ends : here + headerLen + header.payloadLen.toNat = bytes.length
  entries : SectionIndex.parseEntries
    (field bytes (here + headerLen) header.payloadLen.toNat) here = .ok index

theorem parseEntries_moved {payload : Bytes} {here : Nat} {index : SectionIndex}
    (parsed : SectionIndex.parseEntries payload here = .ok index) (there : Nat) :
    index.fileOffset = here ∧
      SectionIndex.parseEntries payload there = .ok { index with fileOffset := there } := by
  unfold SectionIndex.parseEntries at parsed ⊢
  simp only [bind_eq_ok, refuseIf_eq_ok] at parsed
  obtain ⟨_, whole, _, some_, entries, collected, ended⟩ := parsed
  rw [refuseIf_of_not whole, ok_bind, refuseIf_of_not some_, ok_bind, collected, ok_bind]
  cases last : entries.getLast? with
  | none =>
    rw [last] at ended
    cases ended
  | some row =>
    rw [last] at ended
    simp only [bind_eq_ok, refuseIf_eq_ok] at ended ⊢
    obtain ⟨_, listed, same⟩ := ended
    cases same
    exact ⟨rfl, (), listed, rfl⟩

variable {build : Build} {source : ImageSource} {bytes : Bytes} (serves : source.Serves bytes)
  (fits : bytes.length < sliceLimit)

include serves fits

theorem locate_eq_ok {base entry : Nat} {index : SectionIndex} (below : base ≤ bytes.length) :
    SectionIndex.locate build source base entry = .ok index ↔
      ∃ header, IndexAt bytes (base + SectionIndex.offsetOf entry) index header := by
  have small : SectionIndex.offsetOf entry < 2 ^ 48 := Nat.mod_lt _ (by decide)
  have short := fits
  rw [sliceLimit_eq] at short
  generalize placed : base + SectionIndex.offsetOf entry = here
  have sum : checkedAddWord base (SectionIndex.offsetOf entry) = some here := by
    rw [checkedAddWord_of_lt (by rw [wordLimit_eq]; omega), placed]
  have saturated : saturatingAddWord here headerLen = here + headerLen := by
    rw [saturatingAddWord_eq, headerLen, wordLimit_eq]
    omega
  unfold SectionIndex.locate
  simp only [sum, okOr_some, ok_bind, saturated, serves.len_eq]
  by_cases room : here + headerLen ≤ bytes.length
  · rw [refuseIf_of_not (Nat.not_lt.mpr room), ok_bind, serves.reads headerLen here room, ok_bind]
    cases parsed : SectionHeader.parse (field bytes here headerLen) here with
    | error failure =>
      rw [error_bind]
      apply iff_of_false
      · intro impossible
        cases impossible
      · intro found
        obtain ⟨header, at_⟩ := found
        rw [at_.parsed] at parsed
        cases parsed
    | ok header =>
      have word := header.payloadLen.toNat_lt
      rw [ok_bind, Arith.add_of_lt _ (by rw [wordLimit_eq]; omega)]
      constructor
      · intro located
        simp only [bind_eq_ok, refuseIf_eq_ok, ok_bind, okOr_eq_ok] at located
        obtain ⟨_, listed, _, plain, payloadEnd, stop, _, ended, payload, read, entries⟩ := located
        obtain ⟨-, rfl⟩ := checkedAddWord_eq_some.mp stop
        have ends := Classical.not_not.mp ended
        rw [serves.readRange fits (by omega)] at read
        cases read
        exact ⟨header, room, parsed, Classical.not_not.mp listed, Classical.not_not.mp plain, ends,
          entries⟩
      · intro found
        obtain ⟨header', at_⟩ := found
        have same := at_.parsed
        rw [parsed] at same
        cases same
        have ends := at_.ends
        rw [ok_bind, refuseIf_of_not (by simp [at_.sectionType]), ok_bind,
          refuseIf_of_not (by simp [at_.compression]), ok_bind,
          checkedAddWord_of_lt (by rw [wordLimit_eq]; omega), okOr_some, ok_bind,
          refuseIf_of_not (by simp [ends]), ok_bind, serves.readRange fits (Nat.le_of_eq ends),
          ok_bind, at_.entries]
  · rw [refuseIf_of (Nat.lt_of_not_le room), error_bind]
    apply iff_of_false
    · intro impossible
      cases impossible
    · intro found
      obtain ⟨header, at_⟩ := found
      exact room at_.room

variable {build' : Build} {source' : ImageSource} {cut : Nat}

theorem index_rest {base : Nat} (from_ : cut ≤ base) (room : base + headerLen ≤ bytes.length)
    (serves' : source'.Serves (rest bytes cut)) {found : Option SectionIndex}
    (indexed : SectionIndex.fromSource build source base = .ok found) :
    SectionIndex.fromSource build' source' (base - cut) = .ok (found.map (indexNearer cut)) := by
  have within : cut ≤ bytes.length := by omega
  have length := rest_length within
  have fits' : (rest bytes cut).length < sliceLimit := by omega
  simp only [headerLen] at room
  have tail : field (rest bytes cut) ((rest bytes cut).length - 8) 8 =
      field bytes (bytes.length - 8) 8 := by
    rw [field_rest within (by omega)]
    congr 1
    omega
  unfold SectionIndex.fromSource at indexed ⊢
  simp only [serves.len_eq, serves'.len_eq] at indexed ⊢
  rw [if_neg (by omega), serves.reads 8 _ (by omega), ok_bind] at indexed
  rw [if_neg (by omega), serves'.reads 8 _ (by omega), ok_bind, tail]
  generalize leNat (field bytes (bytes.length - 8) 8) = entry at indexed ⊢
  by_cases marked : SectionIndex.typeOf entry = SectionType.sectionIndex.asU16
  · rw [if_neg (by simp [marked])] at indexed ⊢
    simp only [bind_eq_ok] at indexed
    obtain ⟨index, located, same⟩ := indexed
    cases same
    obtain ⟨header, at_⟩ := (locate_eq_ok serves fits (by omega)).mp located
    have ends := at_.ends
    have head := at_.room
    have moved := parseEntries_moved at_.entries (base - cut + SectionIndex.offsetOf entry)
    have placed : base + SectionIndex.offsetOf entry =
        cut + (base - cut + SectionIndex.offsetOf entry) := by omega
    have relocated : SectionIndex.locate build' source' (base - cut) entry =
        .ok (indexNearer cut index) := by
      rw [locate_eq_ok serves' fits' (by omega)]
      refine ⟨header, by omega, ?_, at_.sectionType, at_.compression, by omega, ?_⟩
      · rw [field_rest within (by omega), ← placed]
        exact parse_moved at_.parsed
      · rw [field_rest within (by omega), ← Nat.add_assoc, ← placed, moved.2, indexNearer, moved.1]
        congr 2
        omega
    rw [relocated]
    rfl
  · rw [if_pos marked] at indexed ⊢
    cases indexed
    rfl

end Index

section Images

variable {build build' : Build} {source : ImageSource} {bytes : Bytes}
  (serves : source.Serves bytes) (fits : bytes.length < sliceLimit)

include serves fits

/-- No record points before the base or past the end. -/
theorem records_within {base : Nat} {records : List SectionRecord}
    (walked : walkSections build source base = .ok records) :
    ∀ record ∈ records, base ≤ record.fileOffset ∧
      record.fileOffset + record.header.sectionLen ≤ bytes.length := by
  induction records generalizing base with
  | nil => simp
  | cons first later ih =>
    have more : base < bytes.length := by
      by_contra spent
      rw [walkSections_spent serves (Nat.le_of_not_lt spent)] at walked
      cases walked
    rw [walkSections_step serves fits more] at walked
    simp only [bind_eq_ok] at walked
    obtain ⟨header, read, _, walked, same⟩ := walked
    cases same
    have whole := sectionAt_eq_ok read
    intro record member
    cases List.mem_cons.mp member with
    | inl same =>
      subst same
      have saturated := header.sectionLen_eq
      simp only [headerLen] at whole
      exact ⟨Nat.le_refl _, by simp only; omega⟩
    | inr member =>
      have inside := ih walked record member
      exact ⟨by omega, inside.2⟩

variable {image : Image} {source' : ImageSource} {cut : Nat}

/-- Whatever source holds the rest of the bytes, once its detection lands on the same section the
image opens as before. -/
theorem reopened (opened : Image.fromSource build source = .ok image)
    (room : image.baseOffset + headerLen ≤ bytes.length) (from_ : cut ≤ image.baseOffset)
    (serves' : source'.Serves (rest bytes cut))
    (detected : detectBaseOffsetIn build' source' = .ok (image.baseOffset - cut)) :
    ∃ image', Image.fromSource build' source' = .ok image' ∧ Reopened cut image image' := by
  have within : cut ≤ bytes.length := by omega
  have length := rest_length within
  simp only [Image.fromSource, Image.build, bind_eq_ok, pure_eq_ok] at opened
  obtain ⟨base, -, sections, walked, index, indexed, same⟩ := opened
  cases same
  simp only at from_ room detected
  have placed : base = cut + (base - cut) := by omega
  have walked' := @walk_rest build build' _ _ _ _ serves fits within serves' (base - cut) sections
    (by omega) (by rwa [← placed])
  have indexed' := @index_rest build _ _ serves fits build' _ _ base from_ room serves' index indexed
  refine ⟨⟨source', base - cut, sections.map (nearer cut), index.map (indexNearer cut)⟩, ?_,
    rfl, rfl, rfl, ?_⟩
  · simp only [Image.fromSource, Image.build, detected, walked', indexed', ok_bind, pure_eq_ok]
  · apply alike_of_sections
    rw [List.forall₂_map_right_iff, List.forall₂_same]
    intro record member
    obtain ⟨after, inside⟩ := records_within serves fits walked record member
    have offset : cut + (record.fileOffset - cut) = record.fileOffset := by omega
    apply @sameSection_of_field _ _ record (nearer cut record) bytes (rest bytes cut)
    · exact serves
    · exact serves'
    · exact fits
    · omega
    · rfl
    · exact inside
    · rw [length]
      change record.fileOffset - cut + _ ≤ _
      omega
    · change _ = field (rest bytes cut) (record.fileOffset - cut) _
      rw [field_rest within (by rw [offset]; exact inside), offset]

end Images

section Numbers

/-- A word in decimal reads back. -/
theorem pushDigit_digitChar {value digit : Nat} (small : digit < 10)
    (word : value * 10 + digit < wordLimit) :
    pushDigit (some value) digit.digitChar = some (value * 10 + digit) := by
  have isDigit : digit.digitChar.isDigit = true := by
    rw [Nat.isDigit_digitChar]
    exact decide_eq_true small
  have spelled : digit.digitChar.toNat - '0'.toNat = digit := by
    rw [Nat.toNat_digitChar_of_lt_ten small]
    exact Nat.add_sub_cancel_left ..
  simp only [pushDigit, Option.bind_eq_bind, Option.bind_some, isDigit, if_true, spelled,
    Arith.checkedMul_of_lt _ (show value * 10 < wordLimit by omega), checkedAddWord_of_lt word]

theorem foldl_toDigits {n : Nat} (word : n < wordLimit) :
    (Nat.toDigits 10 n).foldl pushDigit (some 0) = some n := by
  induction n using Nat.strongRecOn with
  | ind n ih =>
    by_cases small : n < 10
    · rw [Nat.toDigits_of_lt_base small, List.foldl_cons, List.foldl_nil,
        pushDigit_digitChar small (by omega), Nat.zero_mul, Nat.zero_add]
    · rw [Nat.toDigits_of_base_le (by decide) (Nat.le_of_not_lt small), List.foldl_append,
        ih (n / 10) (by omega) (by omega), List.foldl_cons, List.foldl_nil,
        pushDigit_digitChar (Nat.mod_lt _ (by decide)) (by omega), Nat.div_add_mod']

/-- A word in decimal reads back. -/
theorem parseU64_toDigits {n : Nat} (word : n < wordLimit) :
    parseU64 (Nat.toDigits 10 n) = some n := by
  have unsigned : (Nat.toDigits 10 n).head? ≠ some '+' := by
    intro signed
    have digit := Nat.isDigit_of_mem_toDigits (b := 10) (by decide) (by decide)
      (List.mem_of_head? signed)
    exact absurd digit (by decide)
  rw [parseU64, if_neg unsigned, if_neg Nat.toDigits_ne_nil, foldl_toDigits word]

theorem imageOffset_toString {n : Nat} (word : n < wordLimit) :
    Dwarfsck.imageOffset (toString n) = .ok (some n) := by
  have spelled : parseU64 (toString n).toList = some n := by
    rw [show (toString n).toList = Nat.toDigits 10 n from Nat.toList_repr, parseU64_toDigits word]
  have number : toString n ≠ "auto" := by
    intro same
    rw [same, show parseU64 "auto".toList = none by decide] at spelled
    cases spelled
  rw [Dwarfsck.imageOffset, if_neg number, spelled]

end Numbers

section Main

theorem sameFilesystem_reopened {cut : Nat} {one other : Image} (same : Reopened cut one other)
    (libs : Libraries) (build' : Build) : SameFilesystem libs build' one other :=
  ⟨fun _ => fails_alike same.alike libs build', fun _ => opens_alike same.alike libs build'⟩

theorem detected_of_opened {build : Build} {source : ImageSource} {image : Image}
    (opened : Image.fromSource build source = .ok image) :
    detectBaseOffsetIn build source = .ok image.baseOffset := by
  simp only [Image.fromSource, Image.build, bind_eq_ok, pure_eq_ok] at opened
  obtain ⟨base, detected, _, -, _, -, same⟩ := opened
  cases same
  exact detected

/-- `auto` reads the file one way or the other. -/
theorem auto_opens {build : Build} {mmap : Bool} {file : Bytes} {image : Image}
    (opened : Dwarfsck.openImage build mmap file "auto" none = .ok image) :
    ∃ hold, Held hold ∧ Image.fromSource build (hold file) = .ok image := by
  have unrefused : orRefuse (Image.openPath build mmap file) = .ok image := opened
  have returned : Image.openPath build mmap file = .ok image := by
    cases returned : Image.openPath build mmap file with
    | error failure =>
      rw [returned] at unrefused
      cases unrefused
    | ok found =>
      rw [returned] at unrefused
      cases unrefused
      rfl
  cases mmap with
  | false => exact ⟨ofFile, .file, returned⟩
  | true => exact ⟨ofVec, .memory, returned⟩

variable (build : Build) {file : Bytes} (fits : file.length < sliceLimit)

include fits

theorem fromWindow_rest {hold : Bytes → ImageSource} (held : Held hold) {cut : Nat}
    (within : cut ≤ file.length) :
    Image.fromWindow build (hold file) cut (file.length - cut) =
      Image.fromSource build (hold (rest file cut)) := by
  rw [fromWindow_eq build held fits, if_pos (by omega)]
  rfl

/-- What detection found opens at its offset from a source of either kind, and in memory at every
offset before it. -/
theorem reopened_window {hold : Bytes → ImageSource} (held : Held hold) {image : Image}
    (opened : Image.fromSource build (hold file) = .ok image) :
    (∀ hold', Held hold' → ∃ image',
      Image.fromWindow build (hold' file) image.baseOffset (file.length - image.baseOffset) =
        .ok image' ∧ Reopened image.baseOffset image image') ∧
    ∀ cut ≤ image.baseOffset, ∃ image',
      Image.fromWindow build (ofVec file) cut (file.length - cut) = .ok image' ∧
        Reopened cut image image' := by
  obtain ⟨begins, least⟩ := detected_begins held fits (detected_of_opened opened)
  have room := begins.1
  have short : ∀ cut ≤ image.baseOffset, (rest file cut).length < sliceLimit := by
    intro cut le
    rw [rest_length (by omega)]
    omega
  constructor
  · intro hold' held'
    have small := short image.baseOffset (Nat.le_refl _)
    rw [fromWindow_rest build fits held' (by omega)]
    apply reopened (held.serves fits) fits opened room (Nat.le_refl _) (held'.serves small)
    rw [Nat.sub_self]
    exact detect_start held' small ((begins_rest (by omega)).mpr begins)
  · intro cut le
    have small := short cut le
    rw [fromWindow_rest build fits .memory (by omega)]
    apply reopened (held.serves fits) fits opened room le (serves_ofVec small)
    apply (detects_iff small _).mpr
    constructor
    · rw [begins_rest (by omega), Nat.add_sub_cancel' le]
      exact begins
    · intro c before earlier
      exact least (cut + c) (by omega) ((begins_rest (by omega)).mp earlier)

/-- Asking for the offset that detection found opens what detection opened, in all three binaries
and with or without the length of what is left. -/
theorem detected_offset_reopens (mmap : Bool) :
    (∀ image, Dwarfs.openImage build file .detect = .ok image →
      ∃ image', Dwarfs.openImage build file (.position image.baseOffset) = .ok image' ∧
        Reopened image.baseOffset image image' ∧
        ∀ libs build', SameFilesystem libs build' image image') ∧
    ∀ image, Dwarfsck.openImage build mmap file "auto" none = .ok image →
      ∀ size, size = none ∨ size = some (file.length - image.baseOffset) →
        ∃ image', Dwarfsck.openImage build mmap file (toString image.baseOffset) size = .ok image' ∧
          Reopened image.baseOffset image image' ∧
          ∀ libs build', SameFilesystem libs build' image image' := by
  constructor
  · intro image opened
    obtain ⟨image', reopens, same⟩ := (reopened_window build fits .file opened).1 ofFile .file
    exact ⟨image', reopens, same, sameFilesystem_reopened same⟩
  · intro image opened size whole
    obtain ⟨hold, kind, opened⟩ := auto_opens opened
    obtain ⟨image', reopens, same⟩ := (reopened_window build fits kind opened).1 ofFile .file
    refine ⟨image', ?_, same, sameFilesystem_reopened same⟩
    have room := (detected_begins kind fits (detected_of_opened opened)).1.1
    have width : size.getD (file.length - image.baseOffset) = file.length - image.baseOffset := by
      cases whole with
      | inl unsized => rw [unsized, Option.getD_none]
      | inr sized => rw [sized, Option.getD_some]
    rw [sliceLimit_eq] at fits
    rw [Dwarfsck.openImage, imageOffset_toString (by rw [wordLimit_eq]; omega)]
    change orRefuse (Image.fromWindow build (ofFile file) image.baseOffset
      (size.getD (file.length - image.baseOffset))) = _
    rw [width, reopens]
    rfl

end Main

section Inputs

open OpenedFilesystem

/-- The image behind three other bytes, read one way or the other. -/
def prefixedFrom (hold : Bytes → ImageSource) : Image :=
  { prefixedImage with source := hold prefixedBytes }

theorem openImage_auto {build : Build} {mmap : Bool} {file : Bytes} {image : Image}
    (opened : Image.openPath build mmap file = .ok image) :
    Dwarfsck.openImage build mmap file "auto" none = .ok image := congrArg orRefuse opened

theorem prefixed_length : prefixedBytes.length = 513 := by decide +kernel

theorem prefixed_fits : prefixedBytes.length < sliceLimit := by
  rw [prefixed_length, sliceLimit_eq]
  omega

theorem build_prefixed {hold : Bytes → ImageSource} (either : hold = ofFile ∨ hold = ofVec) :
    Image.fromSource .checked (hold prefixedBytes) = .ok (prefixedFrom hold) := by
  rcases either with rfl | rfl
  · exact build_of_parts rfl (by decide +kernel) (by decide +kernel) (by decide +kernel)
  · exact build_of_parts rfl (by decide +kernel) (by decide +kernel) (by decide +kernel)

def prefixedFilesystem (hold : Bytes → ImageSource) : Filesystem :=
  filesystem (prefixedFrom hold) climbingTables [2, 5] ⟨0, 2, 1, 2, 2, 2, 2⟩

theorem open_prefixed {hold : Bytes → ImageSource} (either : hold = ofFile ∨ hold = ofVec) :
    Filesystem.openImage libraries .checked (prefixedFrom hold) = .ok (prefixedFilesystem hold) := by
  refine openImage_eq_ok.mpr
    ⟨climbingTables, ?_, ofTables_unpacked rfl rfl (by decide) (by decide)⟩
  rcases either with rfl | rfl <;> decide +kernel

/-- A mount at the offset found, and a check of a mapped file at it with the length left. -/
theorem detected_offset_reopens_prefixed :
    (∃ image' fs, Dwarfs.openImage .checked prefixedBytes (.position 3) = .ok image' ∧
      Filesystem.openImage libraries .checked image' = .ok fs ∧
      SameAnswers libraries (prefixedFilesystem ofFile) fs) ∧
    ∃ image' fs, Dwarfsck.openImage .checked true prefixedBytes "3" (some 510) = .ok image' ∧
      Filesystem.openImage libraries .checked image' = .ok fs ∧
      SameAnswers libraries (prefixedFilesystem ofVec) fs := by
  have reopens := detected_offset_reopens .checked prefixed_fits true
  constructor
  · have detected : Dwarfs.openImage .checked prefixedBytes .detect = .ok (prefixedFrom ofFile) := by
      rw [Dwarfs.openImage]
      exact build_prefixed (Or.inl rfl)
    obtain ⟨image', opened, -, same⟩ := reopens.1 _ detected
    obtain ⟨fs, found, answers⟩ := (same libraries .checked).2 _ (open_prefixed (Or.inl rfl))
    exact ⟨image', fs, opened, found, answers⟩
  · have mapped : Image.openPath .checked true prefixedBytes = .ok (prefixedFrom ofVec) := by
      rw [Image.openPath, if_pos rfl]
      exact build_prefixed (Or.inr rfl)
    obtain ⟨image', opened, -, same⟩ :=
      reopens.2 _ (openImage_auto mapped) (some 510) (Or.inr (by rw [prefixed_length]; rfl))
    obtain ⟨fs, found, answers⟩ := (same libraries .checked).2 _ (open_prefixed (Or.inr rfl))
    exact ⟨image', fs, opened, found, answers⟩

end Inputs

end Rdwarfs.Guarantees.ReopenedImages
