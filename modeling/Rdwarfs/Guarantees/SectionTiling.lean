import Rdwarfs.Lib.Iteration
import Rdwarfs.Source.Format.Sections
import Rdwarfs.Guarantees.IndexAbsence

/-!
# Two section walkers, one tiling

`walk_sections` reads headers through positional reads, `Sections` slices them out of
memory. Both take the same step, `sectionAt`, so that they split an image into the same
sections and stop at the same error.
-/
namespace Rdwarfs.Guarantees.SectionTiling

open Lib.Machine Lib.Iteration Source Source.Format

/-- The section that starts at `here`, whole or refused. -/
def sectionAt (image : Bytes) (here : Nat) : Result SectionHeader := do
  refuseIf (image.length < here + headerLen) (.truncatedHeader here)
  let header ← SectionHeader.parse (field image here headerLen) here
  refuseIf (image.length < here + (headerLen + header.payloadLen.toNat))
    (.truncatedSection header.number here)
  .ok header

/-- What an error says about the place it was met at. -/
def RaisedAt (image : Bytes) (here : Nat) (reason : Error) : Prop :=
  reason = .truncatedHeader here ∨ reason = .badMagic here ∨
    reason = .unsupportedVersion (image.getD (here + 6) 0) (image.getD (here + 7) 0) ∨
    ∃ number, reason = .truncatedSection number here

def record (section_ : SectionRef) : SectionRecord where
  fileOffset := section_.fileOffset
  header := section_.header

/-- The section itself, where it is whole. -/
def sectionRef (image : Bytes) (here : Nat) (header : SectionHeader) : SectionRef where
  fileOffset := here
  header := header
  bytes := field image here (headerLen + header.payloadLen.toNat)

/-- The sections lie end to end from `start` to `stop`, each holding its own bytes. -/
def Tiles (image : Bytes) : Nat → List SectionRef → Nat → Prop
  | start, [], stop => start = stop
  | start, first :: rest, stop =>
    first.fileOffset = start ∧
      first.bytes = field image start (headerLen + first.header.payloadLen.toNat) ∧
      start + (headerLen + first.header.payloadLen.toNat) ≤ image.length ∧
      Tiles image (start + (headerLen + first.header.payloadLen.toNat)) rest stop

section Step

variable {image : Bytes} {here : Nat}

theorem sectionAt_eq_ok {header : SectionHeader} (read : sectionAt image here = .ok header) :
    here + (headerLen + header.payloadLen.toNat) ≤ image.length := by
  unfold sectionAt at read
  simp only [bind_eq_ok, refuseIf_eq_ok] at read
  obtain ⟨_, -, parsed, -, _, whole, same⟩ := read
  cases same
  exact Nat.le_of_not_lt whole

theorem sectionAt_ne_panicked (image : Bytes) (here : Nat) : sectionAt image here ≠ panicked := by
  intro stopped
  unfold sectionAt at stopped
  simp only [bind_eq_panicked, refuseIf_ne_panicked, false_or] at stopped
  obtain ⟨_, -, parse | ⟨header, -, _, -, done⟩⟩ := stopped
  · exact SectionHeader.parse_ne_panicked _ _ parse
  · cases done

theorem parse_raisedAt {bytes : Bytes} {reason : Error} (long : headerLen ≤ bytes.length)
    (failed : SectionHeader.parse bytes here = fail reason) :
    reason = .badMagic here ∨ reason = .unsupportedVersion (bytes.getD 6 0) (bytes.getD 7 0) := by
  by_cases isMagic : field bytes 0 magicLen = magic
  · rcases @SectionHeader.parse_of_magic bytes here long isMagic with ⟨header, parsed⟩ | version
    · simp [failed] at parsed
    · simp only [failed, Except.error.injEq, Failure.err.injEq] at version
      exact Or.inr version
  · unfold SectionHeader.parse at failed
    rw [if_neg (Nat.not_lt.mpr long), if_pos isMagic] at failed
    cases failed
    exact Or.inl rfl

theorem sectionAt_raisedAt {reason : Error} (failed : sectionAt image here = fail reason) :
    RaisedAt image here reason := by
  unfold sectionAt at failed
  by_cases short : image.length < here + headerLen
  · rw [refuseIf_of short] at failed
    cases failed
    exact Or.inl rfl
  · rw [refuseIf_of_not short, ok_bind] at failed
    have long : (field image here headerLen).length = headerLen := by
      simp only [field, List.length_take, List.length_drop]
      omega
    have at6 : (field image here headerLen).getD 6 0 = image.getD (here + 6) 0 := by
      simp [field, headerLen, List.getD_eq_getElem?_getD, List.getElem?_drop]
    have at7 : (field image here headerLen).getD 7 0 = image.getD (here + 7) 0 := by
      simp [field, headerLen, List.getD_eq_getElem?_getD, List.getElem?_drop]
    cases parsed : SectionHeader.parse (field image here headerLen) here with
    | error failure =>
      rw [parsed, error_bind] at failed
      cases failed
      rcases parse_raisedAt (Nat.le_of_eq long.symm) parsed with isMagic | version
      · exact Or.inr (Or.inl isMagic)
      · rw [at6, at7] at version
        exact Or.inr (Or.inr (Or.inl version))
    | ok header =>
      rw [parsed, ok_bind] at failed
      by_cases cut : image.length < here + (headerLen + header.payloadLen.toNat)
      · rw [refuseIf_of cut] at failed
        cases failed
        exact Or.inr (Or.inr (Or.inr ⟨header.number, rfl⟩))
      · rw [refuseIf_of_not cut] at failed
        cases failed

/-- A saturated length never fits, so that the word sum is the sum where it counts. -/
theorem checkedEnd_eq (fits : image.length < sliceLimit) (header : SectionHeader) :
    (checkedAddWord here header.sectionLen).filter (· ≤ image.length) =
      if image.length < here + (headerLen + header.payloadLen.toNat) then none
      else some (here + (headerLen + header.payloadLen.toNat)) := by
  have bound := header.payloadLen.toNat_lt
  rw [sliceLimit_eq] at fits
  have width : headerLen = 64 := rfl
  by_cases cut : image.length < here + (headerLen + header.payloadLen.toNat)
  · rw [if_pos cut]
    apply ImageSource.bounded_of_gt
    rw [SectionHeader.sectionLen_eq]
    omega
  · have whole : header.sectionLen = headerLen + header.payloadLen.toNat := by
      rw [SectionHeader.sectionLen_eq]
      omega
    rw [if_neg cut, whole, ImageSource.bounded_of_le (by rw [sliceLimit_eq]; omega) (by omega)]

variable {build : Build} {source : ImageSource}

theorem walkSections_step (serves : source.Serves image) (fits : image.length < sliceLimit)
    (inside : here < image.length) :
    walkSections build source here =
      sectionAt image here >>= fun header =>
        walkSections build source (here + (headerLen + header.payloadLen.toNat)) >>= fun rest =>
          .ok ({ fileOffset := here, header } :: rest) := by
  have word := fits
  rw [sliceLimit_eq] at word
  rw [walkSections, if_pos (by rw [serves.len_eq]; exact inside),
    Arith.add_of_lt _ (by rw [wordLimit_eq, headerLen]; omega), ok_bind, sectionAt, serves.len_eq]
  by_cases short : image.length < here + headerLen
  · simp only [gt_iff_lt, refuseIf_of short, error_bind]
  · rw [serves.reads headerLen here (Nat.le_of_not_lt short)]
    simp only [gt_iff_lt, refuseIf_of_not short, ok_bind]
    cases SectionHeader.parse (field image here headerLen) here with
    | error failure => rfl
    | ok header =>
      simp only [ok_bind]
      have stop := @checkedEnd_eq _ here fits header
      by_cases cut : image.length < here + (headerLen + header.payloadLen.toNat)
      · rw [if_pos cut] at stop
        rw [refuseIf_of cut, error_bind, error_bind]
        split
        · rfl
        · rename_i next found
          rw [stop] at found
          cases found
      · rw [if_neg cut] at stop
        rw [refuseIf_of_not cut, ok_bind, ok_bind]
        split
        · rename_i found
          rw [stop] at found
          cases found
        · rename_i next found
          rw [stop] at found
          cases found
          rfl

theorem next_step (fits : image.length < sliceLimit) (inside : here < image.length) :
    Sections.next build { image, cursor := here, done := false } =
      match sectionAt image here with
      | .ok header =>
        .ok (some (.ok (sectionRef image here header)),
          { image, cursor := here + (headerLen + header.payloadLen.toNat), done := false })
      | .error (.err reason) => .ok (some (.error reason), { image, cursor := here, done := true })
      | .error .panic => panicked := by
  have word := fits
  rw [sliceLimit_eq] at word
  rw [Sections.next, if_neg (by simp; omega)]
  simp only [Arith.add_of_lt _ (show here + headerLen < wordLimit by
    rw [wordLimit_eq, headerLen]; omega), ok_bind, sectionAt]
  by_cases short : image.length < here + headerLen
  · simp only [gt_iff_lt, if_pos short, refuseIf_of short, error_bind]
  · simp only [gt_iff_lt, if_neg short, refuseIf_of_not short, ok_bind]
    rw [slice_of_le (by omega) (Nat.le_of_not_lt short), Nat.add_sub_cancel_left, ok_bind]
    change (attempt (SectionHeader.parse (field image here headerLen) here) >>= _) = _
    cases parsed : SectionHeader.parse (field image here headerLen) here with
    | error failure =>
      cases failure with
      | err reason => rfl
      | panic => exact absurd parsed (SectionHeader.parse_ne_panicked _ _)
    | ok header =>
      simp only [attempt_ok, ok_bind, checkedEnd_eq fits]
      by_cases cut : image.length < here + (headerLen + header.payloadLen.toNat)
      · simp only [if_pos cut, refuseIf_of cut, error_bind]
      · simp only [if_neg cut, refuseIf_of_not cut, ok_bind]
        rw [slice_of_le (by omega) (Nat.le_of_not_lt cut), Nat.add_sub_cancel_left]
        rfl

/-- Past the last byte, or after an error, both walkers are through. -/
theorem next_spent {it : Sections} (spent : it.done ∨ it.image.length ≤ it.cursor) :
    Sections.next build it = .ok (none, it) := by
  rw [Sections.next, if_pos spent]

theorem walkSections_spent (serves : source.Serves image) (spent : image.length ≤ here) :
    walkSections build source here = .ok [] := by
  rw [walkSections, if_neg (by rw [serves.len_eq]; omega)]

end Step

section Walkers

variable {image : Bytes} {build : Build} {source : ImageSource}

/-- Either both walkers split the rest of the image alike, or both meet the same error after
the same sections. -/
theorem walkers_from (serves : source.Serves image) (fits : image.length < sliceLimit)
    {here : Nat} (inside : here ≤ image.length) :
    (∃ refs, walkSections build source here = .ok (refs.map record) ∧
      Drains (Sections.next build) { image, cursor := here, done := false } (refs.map .ok) ∧
      Tiles image here refs image.length) ∨
    ∃ refs reason stop, walkSections build source here = fail reason ∧
      Drains (Sections.next build) { image, cursor := here, done := false }
        (refs.map .ok ++ [.error reason]) ∧
      Tiles image here refs stop ∧ RaisedAt image stop reason := by
  generalize rest : image.length - here = left
  induction left using Nat.strongRecOn generalizing here with
  | ind left ih =>
    rcases Nat.eq_or_lt_of_le inside with ended | more
    · exact Or.inl ⟨[], walkSections_spent serves (Nat.le_of_eq ended.symm),
        .spent (next_spent (Or.inr (Nat.le_of_eq ended.symm))), ended⟩
    · have walk := @walkSections_step _ here build _ serves fits more
      have step := @next_step _ here build fits more
      cases read : sectionAt image here with
      | error failure =>
        cases failure with
        | panic => exact absurd read (sectionAt_ne_panicked image here)
        | err reason =>
          rw [read] at walk step
          exact Or.inr ⟨[], reason, here, walk, .found step (.spent (next_spent (Or.inl rfl))),
            rfl, sectionAt_raisedAt read⟩
      | ok header =>
        rw [read] at walk step
        rw [ok_bind] at walk
        have whole := sectionAt_eq_ok read
        have shrinks : image.length - (here + (headerLen + header.payloadLen.toNat)) < left := by
          simp only [headerLen]
          omega
        rcases ih _ shrinks whole rfl with
          ⟨refs, walked, drained, tiles⟩ | ⟨refs, reason, stop, walked, drained, tiles, raised⟩
        · rw [walked] at walk
          exact Or.inl ⟨sectionRef image here header :: refs, walk, .found step drained,
            rfl, rfl, whole, tiles⟩
        · rw [walked] at walk
          exact Or.inr ⟨sectionRef image here header :: refs, reason, stop, walk,
            .found step drained, ⟨rfl, rfl, whole, tiles⟩, raised⟩

end Walkers

/-- The iterator comes to an end, after which it stays silent. The positional walker returns
exactly when the iterator meets no error, the same sections end to end; otherwise it fails
with the one error the iterator ends in. -/
theorem walkers_agree (build : Build) (source : ImageSource) (image : Bytes) (baseOffset : Nat)
    (serves : source.Serves image) (fits : image.length < sliceLimit)
    (inside : baseOffset ≤ image.length) :
    ∃ items, Drains (Sections.next build) (.new image baseOffset) items ∧
      (∀ count, polls (Sections.next build) count (.new image baseOffset) =
        .ok ((items.map some ++ List.replicate count none).take count)) ∧
      ((∃ records, walkSections build source baseOffset = .ok records) ↔
        ∀ item ∈ items, ∃ ref, item = .ok ref) ∧
      (∀ records, walkSections build source baseOffset = .ok records →
        ∃ refs, items = refs.map .ok ∧ records = refs.map record ∧
          Tiles image baseOffset refs image.length) ∧
      ∀ failure, walkSections build source baseOffset = .error failure →
        ∃ reason refs stop, failure = .err reason ∧ items = refs.map .ok ++ [.error reason] ∧
          Tiles image baseOffset refs stop ∧ RaisedAt image stop reason := by
  rcases @walkers_from image build source serves fits baseOffset inside with
    ⟨refs, walked, drained, tiles⟩ | ⟨refs, reason, stop, walked, drained, tiles, raised⟩
  · refine ⟨_, drained, drained.polls, ?_, ?_, ?_⟩
    · exact iff_of_true ⟨_, walked⟩ (by simp)
    · intro records returned
      rw [walked] at returned
      cases returned
      exact ⟨refs, rfl, rfl, tiles⟩
    · intro failure failed
      rw [walked] at failed
      cases failed
  · refine ⟨_, drained, drained.polls, ?_, ?_, ?_⟩
    · apply iff_of_false
      · rintro ⟨records, returned⟩
        rw [walked] at returned
        cases returned
      · intro clean
        obtain ⟨ref, same⟩ := clean (.error reason) (by simp)
        cases same
    · intro records returned
      rw [walked] at returned
      cases returned
    · intro failure failed
      rw [walked] at failed
      cases failed
      exact ⟨reason, refs, stop, rfl, rfl, tiles, raised⟩

section Inputs

open IndexAbsence

def twoBlocks : Bytes := blockImage [1, 2, 3] ++ blockImage [4, 5]

theorem walkers_agree_two :
    ∃ items, Drains (Sections.next .checked) (.new twoBlocks 0) items ∧
      (∀ count, polls (Sections.next .checked) count (.new twoBlocks 0) =
        .ok ((items.map some ++ List.replicate count none).take count)) ∧
      ((∃ records, walkSections .checked (.ofVec twoBlocks) 0 = .ok records) ↔
        ∀ item ∈ items, ∃ ref, item = .ok ref) ∧
      (∀ records, walkSections .checked (.ofVec twoBlocks) 0 = .ok records →
        ∃ refs, items = refs.map .ok ∧ records = refs.map record ∧ Tiles twoBlocks 0 refs 133) ∧
      ∀ failure, walkSections .checked (.ofVec twoBlocks) 0 = .error failure →
        ∃ reason refs stop, failure = .err reason ∧ items = refs.map .ok ++ [.error reason] ∧
          Tiles twoBlocks 0 refs stop ∧ RaisedAt twoBlocks stop reason :=
  walkers_agree .checked (.ofVec twoBlocks) twoBlocks 0
    (ImageSource.serves_ofVec (by decide +kernel)) (by decide +kernel) (by decide +kernel)

/-- Cut one byte short, the second section is an error, told once. -/
example :
    (polls (Sections.next .checked) 3 (.new (twoBlocks.take 132) 0)).map (·.tail) =
      .ok [some (.error (.truncatedSection 0 67)), none] := by
  decide +kernel

end Inputs

end Rdwarfs.Guarantees.SectionTiling
