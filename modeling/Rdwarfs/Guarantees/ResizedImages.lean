import Rdwarfs.Guarantees.TamperedImages

/-!
# An image cut short or added to

Sections say how long they are and nothing says how many there are. Bytes behind an image are read
as further sections, and a cut shows only where it goes through a section; cut between two, the
image opens without the later ones, and no hash covers what is gone.
-/
namespace Rdwarfs.Guarantees.ResizedImages

open Lib.Machine Source Source.Format Source.Format.Image SectionTiling VerifiedImages
open TamperedImages ReopenedImages

/-- A section behind `by_` more bytes. -/
def farther (by_ : Nat) (record : SectionRecord) : SectionRecord :=
  { record with fileOffset := by_ + record.fileOffset }

theorem record_eq {one other : SectionRecord} (place : one.fileOffset = other.fileOffset)
    (same : one.header = other.header) : one = other := by
  cases one
  cases other
  simp only at place same
  rw [place, same]

section Joined

variable {front back : Bytes} {header : SectionHeader}

theorem field_front {offset width : Nat} (inside : offset + width ≤ front.length) :
    field (front ++ back) offset width = field front offset width := by
  rw [field, field, List.drop_append_of_le_length (by omega),
    List.take_append_of_le_length (by rw [List.length_drop]; omega)]

theorem field_back {offset width : Nat} :
    field (front ++ back) (front.length + offset) width = field back offset width := by
  rw [field, field, List.drop_append, Nat.add_sub_cancel_left,
    List.drop_of_length_le (Nat.le_add_right ..), List.nil_append]

theorem sectionAt_front {here : Nat} (read : sectionAt front here = .ok header) :
    sectionAt (front ++ back) here = .ok header := by
  have whole := sectionAt_eq_ok read
  unfold sectionAt at read ⊢
  simp only [bind_eq_ok, refuseIf_eq_ok] at read ⊢
  obtain ⟨_, -, parsed, isHeader, _, -, same⟩ := read
  cases same
  refine ⟨(), by rw [List.length_append]; omega, header, ?_, (), ?_, rfl⟩
  · rw [field_front (by omega)]
    exact isHeader
  · rw [List.length_append]
    omega

theorem sectionAt_back {here : Nat} :
    sectionAt (front ++ back) (front.length + here) = .ok header ↔
      sectionAt back here = .ok header := by
  unfold sectionAt
  simp only [bind_eq_ok, refuseIf_eq_ok, field_back, List.length_append]
  constructor
  · intro read
    obtain ⟨_, long, parsed, isHeader, _, whole, same⟩ := read
    cases same
    exact ⟨(), by omega, header, parse_moved isHeader, (), by omega, rfl⟩
  · intro read
    obtain ⟨_, long, parsed, isHeader, _, whole, same⟩ := read
    cases same
    exact ⟨(), by omega, header, parse_moved isHeader, (), by omega, rfl⟩

theorem chain_back {here : Nat} {all : List SectionRecord} :
    Chain (front ++ back) (front.length + here) all ↔
      ∃ more, Chain back here more ∧ all = more.map (farther front.length) := by
  induction all generalizing here with
  | nil =>
    constructor
    · intro spent
      refine ⟨[], ?_, rfl⟩
      rw [Chain, List.length_append] at spent
      exact Nat.le_of_add_le_add_left spent
    · intro found
      obtain ⟨more, chain, none_⟩ := found
      cases more with
      | nil =>
        rw [Chain, List.length_append]
        exact Nat.add_le_add_left chain _
      | cons first later => cases none_
  | cons first later ih =>
    constructor
    · intro chain
      obtain ⟨inside, place, read, chain⟩ := chain
      rw [Nat.add_assoc] at chain
      obtain ⟨more, rest, rfl⟩ := ih.mp chain
      rw [List.length_append] at inside
      refine ⟨⟨here, first.header⟩ :: more, ⟨by omega, rfl, sectionAt_back.mp read, rest⟩, ?_⟩
      rw [List.map_cons, farther, ← place]
    · intro found
      obtain ⟨more, chain, split⟩ := found
      cases more with
      | nil => cases split
      | cons record rest =>
        obtain ⟨inside, place, read, chain⟩ := chain
        rw [List.map_cons, List.cons.injEq] at split
        obtain ⟨rfl, rfl⟩ := split
        refine ⟨by rw [List.length_append]; omega, by rw [farther, place], sectionAt_back.mpr read, ?_⟩
        rw [Nat.add_assoc]
        exact ih.mpr ⟨rest, chain, rfl⟩

/-- What follows a chain of sections is read from where it ends. -/
theorem chain_joined {start : Nat} {records all : List SectionRecord}
    (chain : Chain front start records) (inside : start ≤ front.length) :
    Chain (front ++ back) start all ↔
      ∃ more, Chain back 0 more ∧ all = records ++ more.map (farther front.length) := by
  induction records generalizing start all with
  | nil =>
    have atEnd : start = front.length + 0 := Nat.le_antisymm inside chain
    rw [atEnd, chain_back]
    rfl
  | cons first later ih =>
    obtain ⟨before, rfl, read, chain⟩ := chain
    have onward := fun others => @ih _ others chain (sectionAt_eq_ok read)
    constructor
    · intro joined
      cases all with
      | nil =>
        rw [Chain, List.length_append] at joined
        omega
      | cons record others =>
        obtain ⟨-, place, read', joined⟩ := joined
        rw [sectionAt_front read] at read'
        have same : record.header = first.header := (Except.ok.inj read').symm
        rw [same] at joined
        obtain ⟨more, rest, rfl⟩ := (onward others).mp joined
        exact ⟨more, rest, by rw [record_eq place same, List.cons_append]⟩
    · intro found
      obtain ⟨more, rest, rfl⟩ := found
      exact ⟨by rw [List.length_append]; omega, rfl, sectionAt_front read,
        (onward _).mpr ⟨more, rest, rfl⟩⟩

end Joined

section Cut

variable {bytes : Bytes} {cut here : Nat} {header : SectionHeader}

theorem field_cut {offset width : Nat} (inside : offset + width ≤ cut) :
    field (bytes.take cut) offset width = field bytes offset width := by
  rw [field, field, List.drop_take, List.take_take, Nat.min_eq_left (by omega)]

/-- A section in front of the cut reads as before, one that the cut goes through is refused where
it ends. -/
theorem sectionAt_cut (short : cut ≤ bytes.length) (read : sectionAt bytes here = .ok header) :
    sectionAt (bytes.take cut) here =
      if cut < here + headerLen then fail (.truncatedHeader here)
      else if cut < here + (headerLen + header.payloadLen.toNat) then
        fail (.truncatedSection header.number here)
      else .ok header := by
  have size : (bytes.take cut).length = cut := by rw [List.length_take, Nat.min_eq_left short]
  unfold sectionAt at read ⊢
  simp only [bind_eq_ok, refuseIf_eq_ok] at read
  obtain ⟨_, -, parsed, isHeader, _, -, same⟩ := read
  cases same
  rw [size]
  by_cases head : cut < here + headerLen
  · rw [refuseIf_of head, if_pos head]
    rfl
  · rw [refuseIf_of_not head, ok_bind, if_neg head, field_cut (by omega), isHeader, ok_bind]
    by_cases whole : cut < here + (headerLen + header.payloadLen.toNat)
    · rw [refuseIf_of whole, if_pos whole]
      rfl
    · rw [refuseIf_of_not whole, if_neg whole]
      rfl

/-- A cut behind the base falls at the start of a section, or goes through it. -/
theorem cut_falls {start : Nat} {records : List SectionRecord} (chain : Chain bytes start records)
    (from_ : start ≤ cut) (inside : cut < bytes.length) :
    ∃ before record after, records = before ++ record :: after ∧ record.fileOffset ≤ cut ∧
      cut < record.fileOffset + (headerLen + record.header.payloadLen.toNat) := by
  induction records generalizing start with
  | nil => exact absurd inside (Nat.not_lt.mpr (Nat.le_trans chain from_))
  | cons first later ih =>
    obtain ⟨-, rfl, -, chain⟩ := chain
    by_cases here : cut < first.fileOffset + (headerLen + first.header.payloadLen.toNat)
    · exact ⟨[], first, later, rfl, from_, here⟩
    · obtain ⟨before, record, after, split, within⟩ := ih chain (Nat.le_of_not_lt here)
      exact ⟨first :: before, record, after, by rw [split, List.cons_append], within⟩

variable {build : Build} {source : ImageSource}

theorem walk_cut (serves : source.Serves (bytes.take cut)) (short : cut ≤ bytes.length)
    (fits : bytes.length < sliceLimit) {start : Nat} {before after : List SectionRecord}
    {record : SectionRecord} (chain : Chain bytes start (before ++ record :: after))
    (from_ : record.fileOffset ≤ cut)
    (within : cut < record.fileOffset + (headerLen + record.header.payloadLen.toNat)) :
    walkSections build source start =
      if cut = record.fileOffset then .ok before
      else if cut < record.fileOffset + headerLen then fail (.truncatedHeader record.fileOffset)
      else fail (.truncatedSection record.header.number record.fileOffset) := by
  have size : (bytes.take cut).length = cut := by rw [List.length_take, Nat.min_eq_left short]
  have small : (bytes.take cut).length < sliceLimit := by omega
  induction before generalizing start with
  | nil =>
    obtain ⟨-, rfl, read, -⟩ := chain
    by_cases atStart : cut = record.fileOffset
    · rw [if_pos atStart, walkSections_spent serves (by omega)]
    · rw [walkSections_step serves small (by omega), sectionAt_cut short read, if_neg atStart]
      by_cases head : cut < record.fileOffset + headerLen
      · rw [if_pos head, if_pos head]
        rfl
      · rw [if_neg head, if_neg head, if_pos within]
        rfl
  | cons first before ih =>
    obtain ⟨-, rfl, read, chain⟩ := chain
    have beyond := (chain_mem chain (List.mem_append_right before (List.mem_cons_self ..))).1
    have width : headerLen = 64 := rfl
    rw [walkSections_step serves small (by omega), sectionAt_cut short read, if_neg (by omega),
      if_neg (by omega), ok_bind, ih chain]
    split
    · rfl
    · split <;> rfl

end Cut

/-- `cut` is where the sections `lost` of an image began, the last ones, and `image'` is what it
has without them. -/
structure Shortened (bytes : Bytes) (cut : Nat) (image image' : Image)
    (lost : List SectionRecord) : Prop where
  sections : image.sections = image'.sections ++ lost
  whole : lost = [] → cut = bytes.length
  starts : ∀ record, lost.head? = some record → cut = record.fileOffset
  verified : ∀ digests deep, verifySections digests deep image = .ok () ↔
    verifySections digests deep image' = .ok () ∧
      ∀ record ∈ lost, Intact digests bytes record deep

/-- `image'` has the sections `more` of `tail` behind those of an image. -/
structure Lengthened (bytes tail : Bytes) (image image' : Image)
    (more : List SectionRecord) : Prop where
  behind : Chain tail 0 more
  sections : image'.sections = image.sections ++ more.map (farther bytes.length)
  verified : ∀ digests deep, verifySections digests deep image' = .ok () ↔
    verifySections digests deep image = .ok () ∧
      ∀ record ∈ more, Intact digests tail record deep

section Opened

variable {bytes : Bytes} {build build' : Build} {source source' : ImageSource} {image image' : Image}
  (serves : source.Serves bytes) (fits : bytes.length < sliceLimit)
  (opened : Image.fromSource build source = .ok image)
  (opened' : Image.fromSource build' source' = .ok image')
  (same : image'.baseOffset = image.baseOffset)

theorem intact_moved {digests : Digests} {other : Bytes} {record moved : SectionRecord} {deep : Bool}
    (header : moved.header = record.header) (bytes_ : stored other moved = stored bytes record) :
    Intact digests other moved deep ↔ Intact digests bytes record deep := by
  rw [Intact, Intact, XxhFits, XxhFits, ShaFits, ShaFits, header, bytes_]

include serves fits opened opened' same

/-- What opens from a front of an image has the sections in front of the cut, which lies between
two of them; the hashes of those are all that is asked of it. -/
theorem opened_cut {cut : Nat} (short : cut ≤ bytes.length)
    (serves' : source'.Serves (bytes.take cut)) :
    ∃ lost, Shortened bytes cut image image' lost := by
  have size : (bytes.take cut).length = cut := by rw [List.length_take, Nat.min_eq_left short]
  have fits' : (bytes.take cut).length < sliceLimit := by omega
  obtain ⟨-, chain⟩ := chain_of_opened serves fits opened
  obtain ⟨-, chain'⟩ := chain_of_opened serves' fits' opened'
  have walked := (@walkSections_iff_chain _ build' _ serves' fits' _ _).mpr chain'
  have begins := opened_inside serves' fits' opened'
  rw [same] at walked begins
  have split : ∃ lost, image.sections = image'.sections ++ lost ∧
      (lost = [] → cut = bytes.length) ∧
      ∀ record, lost.head? = some record → cut = record.fileOffset := by
    by_cases whole : cut = bytes.length
    · refine ⟨[], ?_, fun _ => whole, fun _ impossible => (nomatch impossible)⟩
      rw [whole, List.take_length, same] at chain'
      rw [List.append_nil, chain_unique chain' chain]
    · obtain ⟨before, record, after, parts, from_, within⟩ := cut_falls chain
        (by omega : image.baseOffset ≤ cut) (by omega)
      rw [parts] at chain
      rw [walk_cut serves' short fits chain from_ within] at walked
      by_cases between : cut = record.fileOffset
      · rw [if_pos between] at walked
        cases walked
        refine ⟨record :: after, parts, fun impossible => (nomatch impossible), ?_⟩
        intro first isFirst
        cases isFirst
        exact between
      · rw [if_neg between] at walked
        split at walked
        · cases walked
        · cases walked
  obtain ⟨lost, parts, none_, first⟩ := split
  refine ⟨lost, parts, none_, first, ?_⟩
  intro digests deep
  rw [verifySections_ok_iff digests deep serves fits opened,
    verifySections_ok_iff digests deep serves' fits' opened', parts, List.forall_mem_append]
  apply and_congr_left
  intro _
  apply forall₂_congr
  intro record member
  have whole := sectionAt_eq_ok (chain_mem chain' member).2
  exact (intact_moved rfl (field_cut (by omega))).symm

/-- Bytes behind an image are sections themselves, or the whole does not open; and each section
answers for itself. -/
theorem opened_joined {tail : Bytes} (fits' : (bytes ++ tail).length < sliceLimit)
    (serves' : source'.Serves (bytes ++ tail)) :
    ∃ more, Lengthened bytes tail image image' more := by
  obtain ⟨-, chain⟩ := chain_of_opened serves fits opened
  obtain ⟨-, chain'⟩ := chain_of_opened serves' fits' opened'
  have begins := opened_inside serves fits opened
  rw [same] at chain'
  obtain ⟨more, behind, parts⟩ := (chain_joined chain (by omega)).mp chain'
  refine ⟨more, behind, parts, ?_⟩
  intro digests deep
  rw [verifySections_ok_iff digests deep serves fits opened,
    verifySections_ok_iff digests deep serves' fits' opened', parts, List.forall_mem_append]
  apply and_congr
  · apply forall₂_congr
    intro record member
    exact intact_moved rfl (field_front (sectionAt_eq_ok (chain_mem chain member).2))
  · rw [List.forall_mem_map]
    apply forall₂_congr
    intro record _
    exact intact_moved rfl field_back

end Opened

/-- An image is cut short. A cut through a section ends the walk there, with an error that names
the section and what of it is missing; what still opens from the same base was cut between two
sections, and passes its checks whatever was lost. An image is added to. What still opens from the
same base has its sections and then those of the bytes added. -/
theorem resized_told {bytes : Bytes} {build : Build} {source : ImageSource} {image : Image}
    (serves : source.Serves bytes) (fits : bytes.length < sliceLimit)
    (opened : Image.fromSource build source = .ok image) :
    (∀ cut, image.baseOffset ≤ cut → cut < bytes.length →
      ∃ before record after, image.sections = before ++ record :: after ∧
        record.fileOffset ≤ cut ∧
        cut < record.fileOffset + (headerLen + record.header.payloadLen.toNat) ∧
        ∀ build' source', ImageSource.Serves source' (bytes.take cut) →
          walkSections build' source' image.baseOffset =
            if cut = record.fileOffset then .ok before
            else if cut < record.fileOffset + headerLen then
              fail (.truncatedHeader record.fileOffset)
            else fail (.truncatedSection record.header.number record.fileOffset)) ∧
    ∀ build' source' image', Image.fromSource build' source' = .ok image' →
      image'.baseOffset = image.baseOffset →
      (∀ cut ≤ bytes.length, source'.Serves (bytes.take cut) →
        ∃ lost, Shortened bytes cut image image' lost) ∧
      ∀ tail, (bytes ++ tail).length < sliceLimit → source'.Serves (bytes ++ tail) →
        ∃ more, Lengthened bytes tail image image' more := by
  obtain ⟨-, chain⟩ := chain_of_opened serves fits opened
  constructor
  · intro cut from_ inside
    obtain ⟨before, record, after, parts, starts, within⟩ := cut_falls chain from_ inside
    refine ⟨before, record, after, parts, starts, within, ?_⟩
    intro build' source' serves'
    exact walk_cut serves' (Nat.le_of_lt inside) fits (parts ▸ chain) starts within
  · intro build' source' image' opened' same
    exact ⟨fun cut short serves' => opened_cut serves fits opened opened' same short serves',
      fun tail fits' serves' => opened_joined serves fits opened opened' same fits' serves'⟩

/-- The block with three bytes, cut behind its header. -/
theorem resized_told_block :
    walkSections .wrapping (.ofFile ((IndexAbsence.blockImage [1, 2, 3]).take 65)) 0 =
      fail (.truncatedSection 0 0) := by
  obtain ⟨before, record, after, parts, -, -, walked⟩ :=
    (resized_told (ImageSource.serves_ofVec (by decide)) (by decide) block_opened).1 65
      (by decide) (by decide)
  have only : record ∈ blockOpened.sections := parts ▸ List.mem_append_cons_self
  cases List.mem_singleton.mp only
  exact walked .wrapping _ (ImageSource.serves_ofFile (by decide))

end Rdwarfs.Guarantees.ResizedImages
