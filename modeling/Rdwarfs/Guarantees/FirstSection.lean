import Rdwarfs.Guarantees.DetectEquivalence

/-!
# Which position detection returns

The least position where a supported header stands whose section ends at the end of the input
or in front of another magic, by unbounded arithmetic; without one, the first complaint.
-/
namespace Rdwarfs.Guarantees.FirstSection

open Lib.Machine Lib.Scan Lib.Scan.Verdict Source Source.Format DetectEquivalence

variable {image : Bytes}

/-- A supported header at `c`, with its section ending at the end of the image or in front of
another magic. -/
def Begins (image : Bytes) (c : Nat) : Prop :=
  c + headerLen ≤ image.length ∧
    ∃ header, SectionHeader.parse (field image c headerLen) c = .ok header ∧
      (c + headerLen + header.payloadLen.toNat = image.length ∨
        field image (c + headerLen + header.payloadLen.toNat) magicLen = magic)

/-- A header at `c` whose version the reader does not know. -/
def Unsupported (image : Bytes) (c : Nat) (major minor : UInt8) : Prop :=
  SectionHeader.parse (field image c headerLen) c = fail (.unsupportedVersion major minor)

/-- A magic lies wholly inside. -/
theorem bound_of_magic {c : Nat} (isMagic : field image c magicLen = magic) :
    c + magicLen ≤ image.length := by
  have len := congrArg List.length isMagic
  simp only [field, List.length_take, List.length_drop, magicLen, magic, List.length_cons,
    List.length_nil] at len ⊢
  omega

/-- A whole header lies wholly inside. -/
theorem bound_of_header {c : Nat} (long : headerLen ≤ (field image c headerLen).length) :
    c + headerLen ≤ image.length := by
  simp only [field, List.length_take, List.length_drop, headerLen] at long ⊢
  omega

section Boundary

variable (fits : image.length < sliceLimit) {c : Nat} {header : SectionHeader}

include fits

/-- The checked additions and the saturated length decide as unbounded ones would. -/
theorem followsASectionBoundary_eq_true (room : c + headerLen ≤ image.length) :
    followsASectionBoundary image c header = .ok true ↔
      c + headerLen + header.payloadLen.toNat = image.length ∨
        field image (c + headerLen + header.payloadLen.toNat) magicLen = magic := by
  rw [sliceLimit_eq] at fits
  simp only [headerLen] at room ⊢
  have saturated := header.sectionLen_eq
  have word := header.payloadLen.toNat_lt
  by_cases far : image.length < c + 64 + header.payloadLen.toNat
  · -- the section overruns the image, whether or not its length saturates
    constructor
    · intro follows
      exfalso
      unfold followsASectionBoundary at follows
      cases sum : checkedAddWord c header.sectionLen with
      | none => simp [sum] at follows
      | some next =>
        obtain ⟨below, rfl⟩ := checkedAddWord_eq_some.mp sum
        rw [wordLimit_eq] at below
        simp only [sum] at follows
        rw [if_neg (by omega)] at follows
        cases second : checkedAddWord (c + header.sectionLen) magicLen with
        | none => simp [second] at follows
        | some magicEnd =>
          obtain ⟨-, rfl⟩ := checkedAddWord_eq_some.mp second
          simp only [second] at follows
          rw [if_pos (by simp only [magicLen]; omega)] at follows
          cases follows
    · rintro (atEnd | isMagic)
      · omega
      · have bound := bound_of_magic isMagic
        simp only [magicLen] at bound
        omega
  · have exact_ : header.sectionLen = 64 + header.payloadLen.toNat := by omega
    have within : c + 64 + header.payloadLen.toNat + magicLen < wordLimit := by
      rw [wordLimit_eq, magicLen]
      omega
    unfold followsASectionBoundary
    rw [checkedAddWord_of_lt (by omega)]
    simp only [exact_, ← Nat.add_assoc, checkedAddWord_of_lt within]
    by_cases atEnd : c + 64 + header.payloadLen.toNat = image.length
    · simp [atEnd]
    · rw [if_neg atEnd]
      by_cases beyond : c + 64 + header.payloadLen.toNat + magicLen > image.length
      · rw [if_pos beyond]
        constructor
        · intro absurd_
          cases absurd_
        · rintro (same | isMagic)
          · exact absurd same atEnd
          · exact absurd (bound_of_magic isMagic) (Nat.not_le.mpr beyond)
      · rw [if_neg beyond, slice_of_le (by omega) (by omega), ok_bind, Nat.add_sub_cancel_left]
        simp only [Except.ok.injEq, beq_iff_eq, atEnd, false_or, field]

end Boundary

theorem accepts_iff (fits : image.length < sliceLimit) {c : Nat}
    (room : c + headerLen ≤ image.length) : Accepts image c ↔ Begins image c := by
  unfold Accepts Begins
  constructor
  · rintro ⟨header, parsed, follows⟩
    exact ⟨room, header, parsed, (followsASectionBoundary_eq_true fits room).mp follows⟩
  · rintro ⟨-, header, parsed, boundary⟩
    exact ⟨header, parsed, (followsASectionBoundary_eq_true fits room).mpr boundary⟩

/-- The scanner complains about exactly the headers of an unknown version. -/
theorem verdict_eq_note {c : Nat} {complaint : Error} :
    verdict image (followsASectionBoundary image) c = .note complaint ↔
      ∃ major minor, complaint = .unsupportedVersion major minor ∧
        Unsupported image c major minor := by
  unfold Unsupported
  constructor
  · intro noted
    unfold verdict at noted
    split at noted
    · cases noted
    · split at noted
      · split at noted <;> cases noted
      · rename_i major minor parsed
        cases noted
        exact ⟨major, minor, rfl, parsed⟩
      · cases noted
      · cases noted
  · rintro ⟨major, minor, rfl, parsed⟩
    have isMagic := (SectionHeader.magic_of_parse parsed (by simp) (by simp)).2
    simp only [field, List.drop_zero, List.take_take] at isMagic
    rw [Nat.min_eq_left (by decide)] at isMagic
    unfold verdict
    rw [if_neg (by simp [isMagic]), parsed]

section Main

variable (fits : image.length < sliceLimit)

include fits

/-- Where no section begins, the scanner passes on or complains. -/
theorem verdict_of_not_begins {c : Nat} (room : c + headerLen ≤ image.length)
    (none_ : ¬ Begins image c) :
    verdict image (followsASectionBoundary image) c = .pass ∨
      ∃ major minor, Unsupported image c major minor ∧
        verdict image (followsASectionBoundary image) c =
          .note (.unsupportedVersion major minor) := by
  cases judged : verdict image (followsASectionBoundary image) c with
  | pass => exact Or.inl rfl
  | note complaint =>
    obtain ⟨major, minor, rfl, unsupported⟩ := verdict_eq_note.mp judged
    exact Or.inr ⟨major, minor, unsupported, rfl⟩
  | stop failure => exact absurd judged (verdict_slice_ne_stop c failure)
  | hit => exact absurd ((accepts_iff fits room).mp (verdict_slice_eq_hit.mp judged)) none_

theorem detects_iff (c : Nat) :
    detectBaseOffset image = .ok c ↔ Begins image c ∧ ∀ c' < c, ¬ Begins image c' := by
  unfold detectBaseOffset
  by_cases short : image.length < headerLen
  · rw [if_pos short]
    constructor
    · intro found
      cases found
    · rintro ⟨⟨room, -⟩, -⟩
      omega
  · have long := Nat.le_of_not_lt short
    have room : ∀ i, i < 0 + (lastHeaderStart image + 1 - 0) ↔ i + headerLen ≤ image.length := by
      intro i
      simp only [lastHeaderStart]
      omega
    rw [if_neg short, detectFrom_eq_scan long, scan_eq_ok, room]
    constructor
    · rintro ⟨-, inside, isHit, before⟩
      refine ⟨(accepts_iff fits inside).mp (verdict_slice_eq_hit.mp isHit), ?_⟩
      intro c' lt begins
      have quiet := before c' (Nat.zero_le _) lt
      rw [verdict_slice_eq_hit.mpr ((accepts_iff fits begins.1).mpr begins)] at quiet
      exact not_quiet_hit quiet
    · rintro ⟨begins, least⟩
      refine ⟨Nat.zero_le _, begins.1,
        verdict_slice_eq_hit.mpr ((accepts_iff fits begins.1).mpr begins), ?_⟩
      intro i _ lt
      have inside := begins.1
      rcases verdict_of_not_begins fits (by omega) (least i lt) with judged | ⟨_, _, _, judged⟩
      · rw [judged]
        exact quiet_pass
      · rw [judged]
        exact quiet_note _

section Missing

variable (none_ : ∀ c, ¬ Begins image c)

include none_

theorem detect_unsupported {c : Nat} {major minor : UInt8}
    (unsupported : Unsupported image c major minor)
    (first : ∀ c' < c, ∀ major minor, ¬ Unsupported image c' major minor) :
    detectBaseOffset image = fail (.unsupportedVersion major minor) := by
  have room := bound_of_header (SectionHeader.magic_of_parse unsupported (by simp) (by simp)).1
  have long : headerLen ≤ image.length := by omega
  unfold detectBaseOffset
  rw [if_neg (Nat.not_lt.mpr long), detectFrom_eq_scan long]
  have noted := verdict_eq_note.mpr ⟨major, minor, rfl, unsupported⟩
  have within : c < lastHeaderStart image + 1 - 0 := by
    simp only [lastHeaderStart]
    omega
  apply scan_first_note within
  · intro i lt
    rw [Nat.zero_add]
    rcases verdict_of_not_begins fits (by omega) (none_ i) with judged | ⟨_, _, earlier, _⟩
    · exact judged
    · exact absurd earlier (first i lt _ _)
  · rwa [Nat.zero_add]
  · intro i _ inside
    have inRoom : i + headerLen ≤ image.length := by
      simp only [lastHeaderStart] at inside
      omega
    rcases verdict_of_not_begins fits inRoom (none_ i) with judged | ⟨_, _, _, judged⟩
    · rw [judged]
      exact quiet_pass
    · rw [judged]
      exact quiet_note _

theorem detect_nothing (supported : ∀ c major minor, ¬ Unsupported image c major minor) :
    detectBaseOffset image = fail .notADwarfsImage := by
  unfold detectBaseOffset
  by_cases short : image.length < headerLen
  · rw [if_pos short]
  · have long := Nat.le_of_not_lt short
    rw [if_neg short, detectFrom_eq_scan long, scan_pass]
    · rfl
    · intro i lt
      have inside : i + headerLen ≤ image.length := by
        simp only [lastHeaderStart] at lt
        omega
      rw [Nat.zero_add]
      rcases verdict_of_not_begins fits inside (none_ i) with judged | ⟨major, minor, found, _⟩
      · exact judged
      · exact absurd found (supported i major minor)

end Missing

/-- The offset returned is the least one where a section begins; where none does, the error is
that of the first version the reader does not know, if there is one. -/
theorem detect_exact :
    (∀ c, detectBaseOffset image = .ok c ↔ Begins image c ∧ ∀ c' < c, ¬ Begins image c') ∧
    ((∀ c, ¬ Begins image c) →
      (∀ c major minor, Unsupported image c major minor →
        (∀ c' < c, ∀ major minor, ¬ Unsupported image c' major minor) →
        detectBaseOffset image = fail (.unsupportedVersion major minor)) ∧
      ((∀ c major minor, ¬ Unsupported image c major minor) →
        detectBaseOffset image = fail .notADwarfsImage)) := by
  refine ⟨detects_iff fits, ?_⟩
  intro none_
  constructor
  · intro c major minor unsupported first
    exact detect_unsupported fits none_ unsupported first
  · exact detect_nothing fits none_

end Main

/-- The decoy in the prefix declares a section of `u64::MAX` bytes and is passed over. -/
theorem detect_exact_decoy :
    Begins decoyImage 64 ∧ ∀ c' < 64, ¬ Begins decoyImage c' :=
  ((detect_exact (by decide +kernel : decoyImage.length < sliceLimit)).1 64).mp (by decide +kernel)

end Rdwarfs.Guarantees.FirstSection
