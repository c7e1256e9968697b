import Rdwarfs.Lib.Scan
import Rdwarfs.Source.Format.Detect

/-!
# One scan, two kinds of source

`detectBaseOffset` walks a slice; `detectBaseOffsetIn` walks 64 KiB windows that
overlap by five bytes. Both are the same scan over the verdicts of single
positions (`detectFrom_eq_scan`, `detectWindows_eq_scan`), and the verdicts differ
in one place: a header whose section ends in the last six bytes of the 64-bit range
makes the positional scanner add past the word limit, where the slice scanner
answers "no boundary here" and goes on.

So the two agree exactly on the inputs where no such header is reached before the
first accepted one (`detect_positional_iff`).
-/
namespace Rdwarfs.Guarantees.DetectEquivalence

open Lib.Machine Lib.Scan Source Source.Format

/-- The verdict of a scanner at one position, given its boundary check. -/
def verdict (image : Bytes) (follows : Nat → SectionHeader → Result Bool) (at_ : Nat) :
    Verdict Error :=
  if (image.drop at_).take magicLen ≠ magic then .pass
  else
    match SectionHeader.parse (field image at_ headerLen) at_ with
    | .ok header =>
      match follows at_ header with
      | .ok true => .hit
      | .ok false => .pass
      | .error failure => .stop failure
    | .error (.err (.unsupportedVersion major minor)) => .note (.unsupportedVersion major minor)
    | .error (.err _) => .pass
    | .error .panic => .stop .panic

def lastHeaderStart (image : Bytes) : Nat := image.length - headerLen

section Loops

variable {image : Bytes} (long : headerLen ≤ image.length)

/-- A candidate's verdict, unfolded once: what either loop does with the header found there. -/
theorem scan_candidate {follows : Nat → SectionHeader → Result Bool} {at_ count : Nat}
    {noted : Option Error} (isMagic : (image.drop at_).take magicLen = magic) :
    scan (verdict image follows) .notADwarfsImage (count + 1) at_ noted =
      match SectionHeader.parse (field image at_ headerLen) at_ with
      | .ok header => follows at_ header >>= fun found =>
          if found then .ok at_
          else scan (verdict image follows) .notADwarfsImage count (at_ + 1) noted
      | .error (.err err) =>
          scan (verdict image follows) .notADwarfsImage count (at_ + 1) (rememberVersion noted err)
      | .error .panic => panicked := by
  rw [scan]
  simp only [verdict, isMagic, ne_eq, not_true_eq_false, if_false]
  cases parsed : SectionHeader.parse (field image at_ headerLen) at_ with
  | ok header =>
    simp only
    cases follows at_ header with
    | error failure => simp
    | ok found => cases found <;> simp
  | error failure =>
    cases failure with
    | panic => rfl
    | err err => cases err <;> rfl

/-- Where no magic starts, either scanner passes. -/
theorem verdict_pass {follows : Nat → SectionHeader → Result Bool} {at_ : Nat}
    (absent : (image.drop at_).take magicLen ≠ magic) : verdict image follows at_ = .pass := by
  simp [verdict, absent]

theorem readHeader_serves {source : ImageSource} (serves : source.Serves image) {at_ : Nat}
    (room : at_ + headerLen ≤ image.length) :
    readHeader source at_ = SectionHeader.parse (field image at_ headerLen) at_ := by
  rw [readHeader, serves.reads headerLen at_ room, ok_bind]

/-- Inside a window the magics are those of the image. -/
theorem window_magic {probe want at_ : Nat} (inside : at_ + magicLen ≤ want) :
    ((field image probe want).drop at_).take magicLen =
      (image.drop (probe + at_)).take magicLen := by
  rw [field, List.drop_take, List.take_take, List.drop_drop, Nat.min_eq_left (by omega)]

include long

theorem detectFrom_eq_scan (probe : Nat) (noted : Option Error) :
    detectFrom image probe noted =
      scan (verdict image (followsASectionBoundary image)) .notADwarfsImage
        (lastHeaderStart image + 1 - probe) probe noted := by
  generalize size : image.length + 1 - probe = remaining
  induction remaining using Nat.strongRecOn generalizing probe noted with
  | ind remaining ih =>
    rw [detectFrom]
    simp only [headerLen] at long
    by_cases inside : probe ≤ lastHeaderStart image
    · rw [if_pos (by simpa [lastHeaderStart] using inside)]
      cases found : findMagic (image.drop probe) with
      | none =>
        have absent := findMagic_eq_none found
        simp only [List.drop_drop] at absent
        rw [scan_pass fun i _ => verdict_pass (absent i)]
      | some rel =>
        obtain ⟨isMagic, before⟩ := findMagic_eq_some found
        simp only [List.drop_drop] at isMagic before
        have bound := findMagic_bound found
        simp only [List.length_drop] at bound
        simp only
        by_cases beyond : probe + rel > lastHeaderStart image
        · rw [if_pos (by simpa [lastHeaderStart] using beyond)]
          rw [scan_pass fun i lt => verdict_pass (before i (by omega))]
        · rw [if_neg (by simpa [lastHeaderStart] using beyond)]
          rw [scan_skip rel (by omega) fun i lt => verdict_pass (before i lt)]
          obtain ⟨count, counted⟩ : ∃ count, lastHeaderStart image + 1 - probe - rel = count + 1 :=
            ⟨lastHeaderStart image - probe - rel, by omega⟩
          rw [counted, scan_candidate isMagic]
          have room : probe + rel + headerLen ≤ image.length := by
            simp only [lastHeaderStart, headerLen] at beyond ⊢
            omega
          rw [slice_of_le (by omega) room, ok_bind, Nat.add_sub_cancel_left]
          have next : ∀ noted, detectFrom image (probe + rel + 1) noted =
              scan (verdict image (followsASectionBoundary image)) .notADwarfsImage count
                (probe + rel + 1) noted := by
            intro noted
            rw [ih _ (by simp only [headerLen] at room; omega) (probe + rel + 1) noted rfl]
            congr 1
            omega
          rw [show (image.drop (probe + rel)).take headerLen = field image (probe + rel) headerLen
            from rfl]
          cases SectionHeader.parse (field image (probe + rel) headerLen) (probe + rel) with
          | ok header => simp only [next]
          | error failure =>
            cases failure with
            | panic => rfl
            | err err => simp only [next]
    · rw [if_neg (by simpa [lastHeaderStart] using inside)]
      rw [show lastHeaderStart image + 1 - probe = 0 by omega, scan]

section Windows

variable {source : ImageSource} (build : Build) (serves : source.Serves image)

include serves

/-- One window, and then the scan from where the next window starts, is the scan itself. -/
theorem scanWindow_eq_scan {probe want : Nat} (room : probe + want ≤ image.length)
    (at_ : Nat) (noted : Option Error) (overlap : at_ + (magicLen - 1) ≤ want) :
    (scanWindow build source (field image probe want) probe at_ noted >>= fun result =>
      match result with
      | (some candidate, _) => .ok candidate
      | (none, later) =>
        scan (verdict image (sourceFollowsASectionBoundary build source)) .notADwarfsImage
          (lastHeaderStart image + 1 - (probe + (want - (magicLen - 1))))
          (probe + (want - (magicLen - 1))) later) =
      scan (verdict image (sourceFollowsASectionBoundary build source)) .notADwarfsImage
        (lastHeaderStart image + 1 - (probe + at_)) (probe + at_) noted := by
  have size : (field image probe want).length = want := by
    simp only [field, List.length_take, List.length_drop]
    omega
  simp only [headerLen] at long
  simp only [magicLen] at overlap
  generalize left : want - at_ = remaining
  induction remaining using Nat.strongRecOn generalizing at_ noted with
  | ind remaining ih =>
    rw [scanWindow]
    split
    · rename_i missing
      -- up to the overlap nothing starts here, so the next window takes over
      have passes : ∀ i, at_ + i + magicLen ≤ want →
          verdict image (sourceFollowsASectionBoundary build source) (probe + at_ + i) = .pass := by
        intro i inside
        have absent := findMagic_eq_none missing i
        rw [List.drop_drop, window_magic inside] at absent
        exact verdict_pass (by rwa [Nat.add_assoc])
      simp only [magicLen] at passes
      simp only [ok_bind, magicLen]
      by_cases further : want - 5 - at_ ≤ lastHeaderStart image + 1 - (probe + at_)
      · rw [scan_skip (want - 5 - at_) further fun i lt => passes i (by omega)]
        congr 1 <;> omega
      · rw [scan_pass fun i lt => passes i (by omega)]
        rw [show lastHeaderStart image + 1 - (probe + (want - 5)) = 0 by omega, scan]
    · rename_i rel found
      obtain ⟨isMagic, before⟩ := findMagic_eq_some found
      have bound := findMagic_bound found
      simp only [List.length_drop, size, magicLen] at bound
      have passes : ∀ i, i < rel →
          verdict image (sourceFollowsASectionBoundary build source) (probe + at_ + i) = .pass := by
        intro i lt
        have absent := before i lt
        rw [List.drop_drop, window_magic (by simp only [magicLen]; omega)] at absent
        exact verdict_pass (by rwa [Nat.add_assoc])
      rw [List.drop_drop, window_magic (by simp only [magicLen]; omega)] at isMagic
      simp only [serves.len_eq]
      by_cases beyond : probe + (at_ + rel) > lastHeaderStart image
      · rw [if_pos (by simpa [lastHeaderStart] using beyond), error_bind]
        rw [scan_pass fun i lt => passes i (by omega)]
      · rw [if_neg (by simpa [lastHeaderStart] using beyond)]
        rw [scan_skip rel (by omega) passes]
        obtain ⟨count, counted⟩ :
            ∃ count, lastHeaderStart image + 1 - (probe + at_) - rel = count + 1 :=
          ⟨lastHeaderStart image - (probe + at_) - rel, by omega⟩
        rw [counted, show probe + at_ + rel = probe + (at_ + rel) by omega, scan_candidate isMagic]
        have header : probe + (at_ + rel) + headerLen ≤ image.length := by
          simp only [lastHeaderStart, headerLen] at beyond ⊢
          omega
        rw [readHeader_serves serves header]
        have next := fun noted => ih (want - (at_ + rel + 1)) (by omega) (at_ + rel + 1) noted
          (by omega) rfl
        rw [show lastHeaderStart image + 1 - (probe + (at_ + rel + 1)) = count by omega,
          ← Nat.add_assoc] at next
        cases SectionHeader.parse (field image (probe + (at_ + rel)) headerLen)
            (probe + (at_ + rel)) with
        | error failure =>
          cases failure with
          | panic => rfl
          | err err => exact next _
        | ok header =>
          dsimp only
          cases sourceFollowsASectionBoundary build source (probe + (at_ + rel)) header with
          | error failure => rfl
          | ok found =>
            cases found with
            | true => rfl
            | false => exact next _

theorem detectWindows_eq_scan (probe : Nat) (noted : Option Error) :
    detectWindows build source probe noted =
      scan (verdict image (sourceFollowsASectionBoundary build source)) .notADwarfsImage
        (lastHeaderStart image + 1 - probe) probe noted := by
  generalize size : image.length + 1 - probe = remaining
  induction remaining using Nat.strongRecOn generalizing probe noted with
  | ind remaining ih =>
    have enough := long
    simp only [headerLen] at enough
    rw [detectWindows]
    simp only [serves.len_eq]
    by_cases inside : probe ≤ lastHeaderStart image
    · rw [if_pos (by simpa [lastHeaderStart] using inside)]
      simp only [lastHeaderStart, headerLen] at inside
      generalize width : min scanChunk (image.length - probe) = want
      have chunk : scanChunk = 65536 := rfl
      have room : probe + want ≤ image.length := by omega
      rw [serves.reads want probe room, ok_bind]
      have whole := scanWindow_eq_scan long build serves room 0 noted
        (by simp only [magicLen]; omega)
      simp only [Nat.add_zero probe] at whole
      rw [← whole]
      congr 1
      funext result
      obtain ⟨hit, later⟩ := result
      cases hit with
      | some candidate => rfl
      | none =>
        by_cases short : want < scanChunk
        · simp only [if_pos short]
          rw [show lastHeaderStart image + 1 - (probe + (want - (magicLen - 1))) = 0 by
            simp only [lastHeaderStart, headerLen, magicLen]
            omega, scan]
        · have full : want = scanChunk := by omega
          subst full
          have next := ih _ ?_ (probe + (scanChunk - (magicLen - 1))) later rfl
          · exact (if_neg short).trans next
          · simp only [magicLen, chunk]
            omega
    · rw [if_neg (by simpa [lastHeaderStart] using inside)]
      rw [show lastHeaderStart image + 1 - probe = 0 by omega, scan]

end Windows

end Loops

section Boundary

variable {image : Bytes}

/-- The header at `at_` places the end of its section within a magic of the word limit. -/
def Overhangs (image : Bytes) (at_ : Nat) : Prop :=
  ∃ header, SectionHeader.parse (field image at_ headerLen) at_ = .ok header ∧
    at_ + header.sectionLen < wordLimit ∧ wordLimit ≤ at_ + header.sectionLen + magicLen

/-- The slice scanner returns `at_` when it gets there. -/
def Accepts (image : Bytes) (at_ : Nat) : Prop :=
  ∃ header, SectionHeader.parse (field image at_ headerLen) at_ = .ok header ∧
    followsASectionBoundary image at_ header = .ok true

/-- The boundary check of a slice always answers. -/
theorem followsASectionBoundary_total (image : Bytes) (at_ : Nat) (header : SectionHeader) :
    ∃ found, followsASectionBoundary image at_ header = .ok found := by
  unfold followsASectionBoundary
  cases checkedAddWord at_ header.sectionLen with
  | none => exact ⟨_, rfl⟩
  | some next =>
    dsimp only
    by_cases atEnd : next = image.length
    · exact ⟨true, if_pos atEnd⟩
    · rw [if_neg atEnd]
      cases sum : checkedAddWord next magicLen with
      | none => exact ⟨_, rfl⟩
      | some magicEnd =>
        dsimp only
        have eq := (checkedAddWord_eq_some.mp sum).2
        by_cases beyond : magicEnd > image.length
        · exact ⟨false, if_pos beyond⟩
        · rw [if_neg beyond, slice_of_le (by omega) (by omega), ok_bind]
          exact ⟨_, rfl⟩

variable {source : ImageSource} (build : Build) (serves : source.Serves image)

include serves

/-- Away from the word limit the two boundary checks agree. -/
theorem sourceFollows_eq {at_ : Nat} {header : SectionHeader}
    (apart : ¬ (at_ + header.sectionLen < wordLimit ∧
      wordLimit ≤ at_ + header.sectionLen + magicLen)) :
    sourceFollowsASectionBoundary build source at_ header =
      followsASectionBoundary image at_ header := by
  unfold sourceFollowsASectionBoundary followsASectionBoundary
  cases sum : checkedAddWord at_ header.sectionLen with
  | none => rfl
  | some next =>
    obtain ⟨below, rfl⟩ := checkedAddWord_eq_some.mp sum
    have room : at_ + header.sectionLen + magicLen < wordLimit := by omega
    simp only [serves.len_eq, checkedAddWord_of_lt room, Arith.add_of_lt _ room, ok_bind]
    by_cases atEnd : at_ + header.sectionLen = image.length
    · rw [if_pos atEnd, if_pos atEnd]
    · rw [if_neg atEnd, if_neg atEnd]
      by_cases beyond : at_ + header.sectionLen + magicLen > image.length
      · rw [if_pos beyond, if_pos beyond]
      · rw [if_neg beyond, if_neg beyond, serves.reads _ _ (by omega),
          slice_of_le (by omega) (by omega), Nat.add_sub_cancel_left]
        rfl

/-- At the word limit a checked build panics, and a wrapping build reads out of bounds. -/
theorem sourceFollows_overhang (fits : image.length < sliceLimit) {at_ : Nat}
    {header : SectionHeader} (room : at_ + headerLen ≤ image.length)
    (below : at_ + header.sectionLen < wordLimit)
    (overrun : wordLimit ≤ at_ + header.sectionLen + magicLen) :
    sourceFollowsASectionBoundary build source at_ header =
      match build with
      | .checked => panicked
      | .wrapping => fail (.sourceOutOfBounds (at_ + header.sectionLen) magicLen image.length) := by
  rw [sliceLimit_eq] at fits
  rw [wordLimit_eq] at below overrun
  have far : at_ + header.sectionLen ≠ image.length := by
    simp only [magicLen] at overrun
    omega
  unfold sourceFollowsASectionBoundary
  rw [checkedAddWord_of_lt (by rwa [wordLimit_eq])]
  simp only [serves.len_eq, if_neg far]
  cases build with
  | checked => rw [Arith.add_checked_eq_panicked.mpr (by rwa [wordLimit_eq]), error_bind]
  | wrapping =>
    simp only [Arith.add, ok_bind, wordLimit_eq, magicLen] at overrun ⊢
    rw [if_neg (by simp only [headerLen] at room; omega)]
    rw [serves.refuses _ _ (by omega), error_bind]

end Boundary

section Outcomes

/-- The same offset, or errors of the same variant. -/
def SameOutcome : Result Nat → Result Nat → Prop
  | .ok found, .ok other => found = other
  | .error (.err reason), .error (.err other) => reason.ctorIdx = other.ctorIdx
  | _, _ => False

instance : (one other : Result Nat) → Decidable (SameOutcome one other)
  | .ok found, .ok other => inferInstanceAs (Decidable (found = other))
  | .error (.err reason), .error (.err other) =>
    inferInstanceAs (Decidable (reason.ctorIdx = other.ctorIdx))
  | .ok _, .error _ => .isFalse id
  | .error .panic, _ => .isFalse id
  | .error (.err _), .ok _ => .isFalse id
  | .error (.err _), .error .panic => .isFalse id

variable {image : Bytes}

theorem verdict_slice_ne_stop (at_ : Nat) (failure : Failure Error) :
    verdict image (followsASectionBoundary image) at_ ≠ .stop failure := by
  unfold verdict
  split
  · simp
  · split
    · rename_i header _
      obtain ⟨found, eq⟩ := followsASectionBoundary_total image at_ header
      rw [eq]
      cases found <;> simp
    · simp
    · simp
    · rename_i parsed
      exact absurd parsed (SectionHeader.parse_ne_panicked _ _)

theorem verdict_slice_eq_hit {at_ : Nat} :
    verdict image (followsASectionBoundary image) at_ = .hit ↔ Accepts image at_ := by
  unfold verdict Accepts
  constructor
  · intro isHit
    split at isHit
    · cases isHit
    · split at isHit
      · rename_i header parsed
        refine ⟨header, parsed, ?_⟩
        split at isHit <;> first | assumption | cases isHit
      all_goals cases isHit
  · rintro ⟨header, parsed, follows⟩
    have isMagic := (SectionHeader.magic_of_parse parsed (by simp) (by simp)).2
    simp only [field, List.drop_zero, List.take_take] at isMagic
    rw [Nat.min_eq_left (by decide)] at isMagic
    rw [if_neg (by simp [isMagic]), parsed]
    simp only [follows]

theorem verdict_note {follows : Nat → SectionHeader → Result Bool} {at_ : Nat}
    {complaint : Error} (noted : verdict image follows at_ = .note complaint) :
    ∃ major minor, complaint = .unsupportedVersion major minor := by
  unfold verdict at noted
  split at noted
  · cases noted
  · split at noted
    · split at noted <;> cases noted
    · cases noted
      exact ⟨_, _, rfl⟩
    · cases noted
    · cases noted

/-- The slice scanner answers, and its errors are its two documented ones. -/
theorem detectBaseOffset_cases (image : Bytes) :
    (∃ found, detectBaseOffset image = .ok found) ∨ detectBaseOffset image = fail .notADwarfsImage ∨
      ∃ major minor, detectBaseOffset image = fail (.unsupportedVersion major minor) := by
  unfold detectBaseOffset
  by_cases short : image.length < headerLen
  · exact Or.inr (Or.inl (if_pos short))
  · rw [if_neg short, detectFrom_eq_scan (Nat.le_of_not_lt short)]
    rcases scan_cases (verdict image (followsASectionBoundary image)) .notADwarfsImage
        (lastHeaderStart image + 1 - 0) 0 none with
      found | ⟨complaint, eq, source⟩ | ⟨i, failure, -, -, stops, -⟩
    · exact Or.inl found
    · rcases source with rfl | none_ | ⟨i, -, -, noted⟩
      · exact Or.inr (Or.inl eq)
      · cases none_
      · obtain ⟨major, minor, rfl⟩ := verdict_note noted
        exact Or.inr (Or.inr ⟨major, minor, eq⟩)
    · exact absurd stops (verdict_slice_ne_stop i failure)

end Outcomes

section Main

variable {image : Bytes} {source : ImageSource} (build : Build)
  (fits : image.length < sliceLimit) (serves : source.Serves image)

include serves

theorem verdict_eq_of_not_overhangs {at_ : Nat} (apart : ¬ Overhangs image at_) :
    verdict image (sourceFollowsASectionBoundary build source) at_ =
      verdict image (followsASectionBoundary image) at_ := by
  unfold verdict
  split
  · rfl
  · cases parsed : SectionHeader.parse (field image at_ headerLen) at_ with
    | error failure =>
      cases failure with
      | panic => rfl
      | err reason => cases reason <;> rfl
    | ok header =>
      dsimp only
      rw [sourceFollows_eq build serves fun overhang => apart ⟨header, parsed, overhang⟩]

/-- Where no overhanging header comes before the first accepted one, the scans are equal. -/
theorem scans_eq (long : headerLen ≤ image.length)
    (settled : ∀ c, c + headerLen ≤ image.length → Overhangs image c →
      ∃ c' < c, Accepts image c') :
    detectWindows build source 0 none = detectFrom image 0 none := by
  rw [detectWindows_eq_scan long build serves, detectFrom_eq_scan long]
  refine (scan_congr fun i _ lt noHit => ?_).symm
  refine (verdict_eq_of_not_overhangs build serves fun overhang => ?_).symm
  obtain ⟨c', before, accepted⟩ :=
    settled i (by simp only [lastHeaderStart, headerLen] at lt long ⊢; omega) overhang
  exact noHit c' (Nat.zero_le _) before (verdict_slice_eq_hit.mpr accepted)

include fits

theorem verdict_of_overhangs {at_ : Nat} (room : at_ + headerLen ≤ image.length)
    (overhang : Overhangs image at_) :
    ∃ failure, verdict image (sourceFollowsASectionBoundary build source) at_ = .stop failure ∧
      (failure = .panic ∨ ∃ offset len total, failure = .err (.sourceOutOfBounds offset len total)) := by
  obtain ⟨header, parsed, below, overrun⟩ := overhang
  have isMagic := (SectionHeader.magic_of_parse parsed (by simp) (by simp)).2
  simp only [field, List.drop_zero, List.take_take] at isMagic
  rw [Nat.min_eq_left (by decide)] at isMagic
  unfold verdict
  rw [if_neg (by simp [isMagic]), parsed]
  dsimp only
  rw [sourceFollows_overhang build serves fits room below overrun]
  cases build with
  | checked => exact ⟨_, rfl, Or.inl rfl⟩
  | wrapping => exact ⟨_, rfl, Or.inr ⟨_, _, _, rfl⟩⟩

/-- An overhanging header that is reached ends the positional scan. -/
theorem detectWindows_overhang {c : Nat} (room : c + headerLen ≤ image.length)
    (overhang : Overhangs image c) (unaccepted : ∀ c' < c, ¬ Accepts image c') :
    detectWindows build source 0 none = panicked ∨
      ∃ offset len total,
        detectWindows build source 0 none = fail (.sourceOutOfBounds offset len total) := by
  have long : headerLen ≤ image.length := by omega
  induction c using Nat.strongRecOn with
  | ind c ih =>
    by_cases earlier : ∃ c' < c, Overhangs image c'
    · obtain ⟨c', before, overhang'⟩ := earlier
      exact ih c' before (by omega) overhang' fun d lt => unaccepted d (by omega)
    · obtain ⟨failure, stops, kind⟩ := verdict_of_overhangs build fits serves room overhang
      have eq : detectWindows build source 0 none = .error failure := by
        rw [detectWindows_eq_scan long build serves]
        refine scan_stop (Nat.zero_le c) ?_ stops fun i _ before => ?_
        · simp only [lastHeaderStart]
          omega
        · rw [verdict_eq_of_not_overhangs build serves fun o => earlier ⟨i, before, o⟩]
          cases judged : verdict image (followsASectionBoundary image) i with
          | pass => simp
          | note complaint => simp
          | hit => exact absurd (verdict_slice_eq_hit.mp judged) (unaccepted i before)
          | stop failure => exact absurd judged (verdict_slice_ne_stop i failure)
      rcases kind with rfl | ⟨offset, len, total, rfl⟩
      · exact Or.inl eq
      · exact Or.inr ⟨offset, len, total, eq⟩

end Main

/-- The positional scanner agrees with the slice scanner exactly when no overhanging
header comes before the first accepted one. -/
theorem detect_positional_iff (build : Build) (source : ImageSource) (image : Bytes)
    (fits : image.length < sliceLimit) (serves : source.Serves image)
    (positional : source.asSlice = none) :
    SameOutcome (detectBaseOffsetIn build source) (detectBaseOffset image) ↔
      ∀ c, c + headerLen ≤ image.length → Overhangs image c → ∃ c' < c, Accepts image c' := by
  have answers := detectBaseOffset_cases image
  unfold detectBaseOffsetIn
  simp only [positional, serves.len_eq]
  unfold detectBaseOffset at answers ⊢
  by_cases short : image.length < headerLen
  · rw [if_pos short, if_pos short]
    exact iff_of_true rfl fun c room => absurd room (by omega)
  · rw [if_neg short] at answers ⊢
    rw [if_neg short]
    constructor
    · intro same c room overhang
      by_contra unaccepted
      push Not at unaccepted
      rcases detectWindows_overhang build fits serves room overhang unaccepted with
        eq | ⟨offset, len, total, eq⟩
      · rw [eq] at same
        exact same
      · rw [eq] at same
        rcases answers with ⟨found, eq'⟩ | eq' | ⟨major, minor, eq'⟩ <;> rw [eq'] at same
        · exact same
        · simp [SameOutcome, Error.ctorIdx] at same
        · simp [SameOutcome, Error.ctorIdx] at same
    · intro settled
      rw [scans_eq build serves (Nat.le_of_not_lt short) settled]
      rcases answers with ⟨found, eq⟩ | eq | ⟨major, minor, eq⟩ <;> rw [eq] <;> rfl

section Inputs

/-- A header of version 2.5 with everything else zero but its payload length. -/
def headerBytes (payloadLen : Bytes) : Bytes :=
  magic ++ [2, 5] ++ List.replicate 48 0 ++ payloadLen

/-- One empty section. -/
def plainImage : Bytes := headerBytes (List.replicate 8 0)

/-- A header that declares `u64::MAX` payload bytes, in front of that section. -/
def decoyImage : Bytes := headerBytes (List.replicate 8 255) ++ plainImage

theorem detect_positional_plain :
    SameOutcome (detectBaseOffsetIn .checked (.ofFile plainImage)) (detectBaseOffset plainImage) := by
  refine (detect_positional_iff .checked (.ofFile plainImage) plainImage (by decide)
    (ImageSource.serves_ofFile (by decide)) rfl).mpr fun c room overhang => ?_
  have first : c = 0 := by
    have len : plainImage.length = 64 := by decide
    simp only [len, headerLen] at room
    omega
  subst first
  obtain ⟨header, parsed, -, overrun⟩ := overhang
  cases parsed
  exact absurd overrun (by decide)

/-- The slice scanner skips the decoy; the positional one panics on it, or fails. -/
theorem detect_decoy_diverges :
    detectBaseOffset decoyImage = .ok 64 ∧
      ∀ build, ¬ SameOutcome (detectBaseOffsetIn build (.ofFile decoyImage))
        (detectBaseOffset decoyImage) := by
  refine ⟨by decide +kernel, fun build => ?_⟩
  cases build <;> decide +kernel

end Inputs

end Rdwarfs.Guarantees.DetectEquivalence
