import Rdwarfs.Lib.Builds
import Rdwarfs.Source.Metadata.Model

/-!
# The decoder in three arithmetics

Only `Pos::child` and the bit length of the buffer add or multiply plainly, the rest checks or
saturates. So every function of the decoder tracks: two builds that do not panic return the
same, and it was read where unbounded numbers put it.
-/
namespace Rdwarfs.Guarantees.FrozenArithmetic

open Lib.Machine Lib.Builds Source Source.Metadata

def frozenIn (frozen : Frozen) (arith : Arith) : Frozen := { frozen with arith }

/-- The same metadata, its positions computed in another arithmetic. -/
def metadataIn (m : Metadata) (arith : Arith) : Metadata :=
  { m with frozen := frozenIn m.frozen arith }

section Bits

variable (bytes : Bytes)

theorem tracks_readU64 (offset bits : Nat) : Tracks fun arith => readU64 arith bytes offset bits := by
  unfold readU64
  refine .ite (.of_constant fun _ => rfl) ?_
  refine .bind (.of_constant fun _ => rfl) fun _ => ?_
  refine .bind (tracks_checkedAdd ..) fun endBit => ?_
  refine .bind (tracks_mul ..) fun bitLen => ?_
  exact .of_constant fun _ => rfl

theorem absoluteBit_of_lt {pos : Pos} (fits : pos.byte * 8 + pos.bit < wordLimit) (arith : Arith) :
    pos.absoluteBit arith = pos.byte * 8 + pos.bit := by
  rw [wordLimit_eq] at fits
  cases arith with
  | exact => rfl
  | machine build =>
    simp only [Pos.absoluteBit, Arith.saturatingAdd, Arith.saturatingMul, wordLimit_eq]
    omega

theorem absoluteBit_of_le {pos : Pos} (beyond : wordLimit ≤ pos.byte * 8 + pos.bit) (build : Build) :
    pos.absoluteBit (.machine build) = wordLimit - 1 := by
  rw [wordLimit_eq] at beyond
  simp only [Pos.absoluteBit, Arith.saturatingAdd, Arith.saturatingMul, wordLimit_eq]
  omega

/-- The saturated bit offset is the last one, where nothing can be read. -/
theorem tracks_readBits (pos : Pos) (bits : Nat) :
    Tracks fun arith => readU64 arith bytes (pos.absoluteBit arith) bits := by
  by_cases fits : pos.byte * 8 + pos.bit < wordLimit
  · simp only [absoluteBit_of_lt fits]
    exact tracks_readU64 bytes _ bits
  · have beyond := absoluteBit_of_le (Nat.le_of_not_lt fits)
    by_cases none_ : bits = 0
    · exact .of_constant fun _ => by simp only [readU64, if_pos none_]
    · have refused (build : Build) : (Arith.machine build).checkedAdd (wordLimit - 1) bits = none := by
        simp only [Arith.checkedAdd, wordLimit_eq]
        exact if_neg (by omega)
      refine Or.inr ⟨?_, fun value returned => ?_⟩
      · simp only [readU64, if_neg none_, beyond, refused, okOr_none]
        cases refuseIf (bits > 64) _ <;> rfl
      · simp [readU64, if_neg none_, beyond, refused, bind_eq_ok] at returned

theorem leNat_drop (start : Nat) : leNat (bytes.drop start) = leNat bytes / 256 ^ start := by
  induction start generalizing bytes with
  | zero => simp
  | succ start ih =>
    cases bytes with
    | nil => simp [leNat]
    | cons byte rest =>
      have low := byte.toNat_lt
      rw [List.drop_succ_cons, ih, leNat, Nat.pow_succ', ← Nat.div_div_eq_div_mul]
      congr 1
      omega

theorem leNat_take (width : Nat) : leNat (bytes.take width) = leNat bytes % 256 ^ width := by
  induction width generalizing bytes with
  | zero => simp [leNat, Nat.mod_one]
  | succ width ih =>
    cases bytes with
    | nil => simp [leNat]
    | cons byte rest =>
      have low := byte.toNat_lt
      rw [List.take_succ_cons, leNat, leNat, ih, Nat.pow_succ', Nat.mod_mul]
      congr 1
      · omega
      · congr 2
        omega

/-- A window wide enough holds the same bits as the whole buffer. -/
theorem leNat_window {start span shift bits : Nat} (fits : shift + bits ≤ 8 * span) :
    leNat ((bytes.drop start).take span) / 2 ^ shift % 2 ^ bits =
      leNat bytes / 2 ^ (8 * start + shift) % 2 ^ bits := by
  have split : 256 ^ span = 2 ^ shift * 2 ^ (8 * span - shift) := by
    rw [← Nat.pow_add, show (256 : Nat) = 2 ^ 8 from rfl, ← Nat.pow_mul]
    congr 1
    omega
  have divides : 2 ^ bits ∣ 2 ^ (8 * span - shift) := Nat.pow_dvd_pow 2 (by omega)
  rw [leNat_take, leNat_drop, split, Nat.mod_mul_right_div_self, Nat.mod_mod_of_dvd _ divides,
    Nat.div_div_eq_div_mul, show (256 : Nat) = 2 ^ 8 from rfl, ← Nat.pow_mul, ← Nat.pow_add]

theorem checkedAdd_eq_add {arith : Arith} {x y z : Nat} (added : arith.checkedAdd x y = some z) :
    z = x + y := by
  cases arith with
  | exact => exact (Option.some.inj added).symm
  | machine build =>
    simp only [Arith.checkedAdd] at added
    split at added
    · exact (Option.some.inj added).symm
    · cases added

theorem checkedMul_eq_mul {arith : Arith} {x y z : Nat} (timed : arith.checkedMul x y = some z) :
    z = x * y := by
  cases arith with
  | exact => exact (Option.some.inj timed).symm
  | machine build =>
    simp only [Arith.checkedMul] at timed
    split at timed
    · exact (Option.some.inj timed).symm
    · cases timed

section Read

variable {bytes} {arith : Arith} {offset bits value : Nat}

theorem bitLen_eq (arith : Arith) (short : 8 * bytes.length < wordLimit) :
    (arith.mul bytes.length 8 : Result Nat) = .ok (8 * bytes.length) := by
  rw [arith.mul_of_lt (by omega), Nat.mul_comm]

theorem mul_le {arith : Arith} {x y z : Nat} (timed : (arith.mul x y : Result Nat) = .ok z) :
    z ≤ x * y := by
  cases arith with
  | exact =>
    cases timed
    exact Nat.le_refl _
  | machine build =>
    cases build with
    | checked =>
      simp only [Arith.mul] at timed
      split at timed
      · cases timed
        exact Nat.le_refl _
      · cases timed
    | wrapping =>
      cases timed
      exact Nat.mod_le _ _

/-- What a read returns: the bits from the offset on of the number that the buffer spells. -/
theorem readU64_eq_ok (width : 0 < bits) (returned : readU64 arith bytes offset bits = .ok value) :
    bits ≤ 64 ∧ offset + bits ≤ 8 * bytes.length ∧
      value = leNat bytes / 2 ^ offset % 2 ^ bits := by
  simp only [readU64, Nat.ne_of_gt width, if_false, bind_eq_ok, okOr_eq_ok, refuseIf_eq_ok,
    pure_eq_ok, Except.ok.injEq] at returned
  obtain ⟨_, narrow, endBit, added, bitLen, timed, _, inside, window, sliced, rfl⟩ := returned
  have most := mul_le timed
  rw [checkedAdd_eq_add added] at inside
  rw [slice_of_le (by omega) (by omega)] at sliced
  cases sliced
  refine ⟨by omega, by omega, ?_⟩
  rw [Nat.add_sub_cancel_left, leNat_window bytes (by omega), Nat.div_add_mod]

/-- Bits in the buffer are read. -/
theorem readU64_of_le {bitLen : Nat} (timed : (arith.mul bytes.length 8 : Result Nat) = .ok bitLen)
    (width : 0 < bits) (narrow : bits ≤ 64) (fits : offset + bits < wordLimit)
    (inside : offset + bits ≤ bitLen) :
    readU64 arith bytes offset bits = .ok (leNat bytes / 2 ^ offset % 2 ^ bits) := by
  have most := mul_le timed
  rw [readU64, if_neg (Nat.ne_of_gt width), refuseIf_of_not (by omega), ok_bind,
    arith.checkedAdd_of_lt fits, okOr_some, ok_bind, timed, ok_bind, refuseIf_of_not (by omega),
    ok_bind]
  simp only []
  rw [slice_of_le (by omega) (by omega), ok_bind, Nat.add_sub_cancel_left,
    leNat_window _ (by omega), Nat.div_add_mod]
  rfl

/-- A read never panics: the window it takes ends where the bits do. -/
theorem settles_readU64 (short : 8 * bytes.length < wordLimit) (offset bits : Nat) :
    Settles (readU64 arith bytes offset bits) fun _ =>
      bits = 0 ∨ offset + bits ≤ 8 * bytes.length := by
  by_cases none_ : bits = 0
  · simp only [readU64, if_pos none_]
    exact settles_ok (Or.inl none_)
  · simp only [readU64, if_neg none_, bitLen_eq arith short, ok_bind]
    refine (settles_refuseIf ..).bind fun _ _ => ?_
    refine (settles_okOr ..).bind fun endBit added => ?_
    refine (settles_refuseIf ..).bind fun _ inside => ?_
    rw [checkedAdd_eq_add added] at inside
    rw [slice_of_le (by omega) (by omega)]
    exact settles_ok (Or.inr (by omega))

/-- A position whose bits can be read was not saturated. -/
theorem settles_readBits (short : 8 * bytes.length < wordLimit) (pos : Pos) (bits : Nat) :
    Settles (readU64 arith bytes (pos.absoluteBit arith) bits) fun _ =>
      bits = 0 ∨ pos.byte * 8 + pos.bit + bits ≤ 8 * bytes.length := by
  refine (settles_readU64 short _ bits).mono fun _ inside => ?_
  by_cases fits : pos.byte * 8 + pos.bit < wordLimit
  · rwa [absoluteBit_of_lt fits] at inside
  · cases arith with
    | exact => exact inside
    | machine build =>
      rw [absoluteBit_of_le (Nat.le_of_not_lt fits)] at inside
      omega

end Read

end Bits

section Tracking

variable (frozen : Frozen)

theorem tracks_child (pos : Pos) (field : Field) :
    Tracks fun arith => (frozenIn frozen arith).child pos field := by
  unfold Frozen.child Pos.child
  refine .ite ?_ ?_ <;> exact (tracks_add ..).bind fun _ => .of_constant fun _ => rfl

theorem tracks_readIntegral (pos : Pos) (bits : UInt16) :
    Tracks fun arith => (frozenIn frozen arith).readIntegral pos bits :=
  tracks_readBits frozen.bytes pos bits.toNat

theorem tracks_readRangeField (pos : Pos) (field : Option Field) :
    Tracks fun arith => (frozenIn frozen arith).readRangeField pos field := by
  cases field with
  | none => exact .of_constant fun _ => rfl
  | some field =>
    refine .bind (.of_constant fun _ => rfl) fun layout => ?_
    exact (tracks_child frozen pos field).bind fun at_ => tracks_readIntegral frozen at_ _

theorem tracks_readRange (pos : Pos) (layout : Layout) :
    Tracks fun arith => (frozenIn frozen arith).readRange pos layout := by
  refine (tracks_readRangeField frozen pos _).bind fun count => ?_
  refine .bind ?_ fun distance => ?_
  · exact .ite (.of_constant fun _ => rfl) (tracks_readRangeField frozen pos _)
  · exact (tracks_checkedAdd ..).bind fun _ => .of_constant fun _ => rfl

theorem tracks_readOptional (pos : Pos) (layout : Layout) :
    Tracks fun arith => (frozenIn frozen arith).readOptional pos layout := by
  refine .bind (.of_constant fun _ => rfl) fun isset => ?_
  refine (tracks_child frozen pos isset).bind fun at_ => ?_
  refine .bind ((tracks_readBits frozen.bytes at_ 1).bind fun _ => .of_constant fun _ => rfl)
    fun present => ?_
  cases layout.field 2 with
  | none => exact .of_constant fun _ => rfl
  | some value => exact (tracks_child frozen pos value).bind fun _ => .of_constant fun _ => rfl

theorem tracks_readStringBytes (pos : Pos) (layout : Layout) :
    Tracks fun arith => (frozenIn frozen arith).readStringBytes pos layout := by
  refine (tracks_readRange frozen pos layout).bind fun range => ?_
  exact (tracks_checkedAdd ..).bind fun _ => .of_constant fun _ => rfl

theorem tracks_elementPos (range : RangeView) (i : Nat) :
    Tracks fun arith => (frozenIn frozen arith).elementPos range i := by
  unfold Frozen.elementPos
  cases range.itemLayoutId with
  | none => exact (tracks_checkedAdd ..).bind fun _ => .of_constant fun _ => rfl
  | some item =>
    refine .bind (.of_constant fun _ => rfl) fun layout => ?_
    refine .ite ?_ ?_
    · refine (tracks_checkedMul ..).bind fun off => ?_
      exact (tracks_checkedAdd ..).bind fun _ => .of_constant fun _ => rfl
    · exact (tracks_checkedMul ..).bind fun _ => .of_constant fun _ => rfl

end Tracking

end Rdwarfs.Guarantees.FrozenArithmetic
