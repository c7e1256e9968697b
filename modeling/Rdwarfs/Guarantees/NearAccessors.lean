import Rdwarfs.Guarantees.FrozenPositions

/-!
# Accessors near the root

The accessors whose fields all lie near the root: scalars, lists of integers, the options and
the compact string tables. None of them overflows, whatever the schema and the bytes.
-/
namespace Rdwarfs.Guarantees.NearAccessors

open Lib.Machine Lib.Builds Source Source.Metadata FrozenArithmetic FrozenPositions

variable {m : Metadata}

section Steps

theorem sound_layout (id : Int16) :
    Sound (fun arith => (metadataIn m arith).schema.layout id) fun layout =>
      m.schema.layout id = .ok layout :=
  .of_constant (fun _ => rfl) ⟨(settles_okOr ..).1, fun _ returned => returned⟩

theorem sound_kind (layout : Layout) :
    Sound (fun arith => LayoutKind.of (metadataIn m arith).schema layout) fun kind =>
      ∀ item, kind = .array item → (layout.field 3).map (·.layoutId) = some item :=
  .of_constant (fun _ => rfl) (settles_kind ..)

theorem sound_ok {ε α : Type} {value : α} {post : α → Prop} (holds : post value) :
    Sound (fun _ => (.ok value : Res ε α)) post :=
  .of_constant (fun _ => rfl) (settles_ok holds)

theorem sound_u32Of (value : Nat) (reason : Error) :
    Sound (fun _ => Metadata.u32Of value reason) fun _ => True :=
  .of_constant (fun _ => rfl) (settles_u32Of ..)

theorem sound_child {pos : Pos} {bound : Nat} (within : Within bound pos) (near : bound ≤ clear)
    (field : Field) :
    Sound (fun arith => (metadataIn m arith).frozen.child pos field) (Within (bound + reach)) :=
  ⟨tracks_child m.frozen pos field, fun _ => settles_child within near field⟩

theorem sound_field (id : Int16) :
    Sound (fun arith => (metadataIn m arith).field id) fun view =>
      ∀ field pos, view = some (field, pos) → Within reach pos := by
  unfold Metadata.field
  simp only [metadataIn]
  cases m.rootLayout.field id with
  | none => exact sound_ok (by simp)
  | some field =>
    refine (sound_child within_root (by decide) field).bind fun pos within => sound_ok ?_
    intro _ _ same
    cases same
    simpa using within

variable (short : 8 * m.frozen.bytes.length < wordLimit)
include short

theorem short_in (arith : Arith) : 8 * (frozenIn m.frozen arith).bytes.length < wordLimit := short

theorem sound_readIntegral (pos : Pos) (bits : UInt16) :
    Sound (fun arith => (metadataIn m arith).frozen.readIntegral pos bits) fun _ => True :=
  ⟨tracks_readIntegral m.frozen pos bits,
    fun arith => (settles_readIntegral (short_in short arith) pos bits).mono fun _ _ => trivial⟩

section Within

variable {pos : Pos} {bound : Nat} (within : Within bound pos) (near : bound ≤ clear)
include within near

theorem sound_readOptional (layout : Layout) :
    Sound (fun arith => (metadataIn m arith).frozen.readOptional pos layout) fun opt =>
      Within (bound + reach) opt.valuePos :=
  ⟨tracks_readOptional m.frozen pos layout,
    fun arith => settles_readOptional (short_in short arith) within near layout⟩

theorem sound_readStringBytes (layout : Layout) :
    Sound (fun arith => (metadataIn m arith).frozen.readStringBytes pos layout) fun _ => True :=
  ⟨tracks_readStringBytes m.frozen pos layout,
    fun arith => (settles_readStringBytes (short_in short arith) within near layout).mono
      fun _ _ => trivial⟩

theorem sound_readCappedRange (layout : Layout) (what : String) (cap : Nat) :
    Sound (fun arith => (metadataIn m arith).readCappedRange pos layout what cap) fun range =>
      range.count ≤ cap ∧ range.itemLayoutId = (layout.field 3).map (·.layoutId) := by
  have range : Sound (fun arith => (metadataIn m arith).frozen.readRange pos layout) fun range =>
      pos.byte ≤ range.dataByte ∧ range.itemLayoutId = (layout.field 3).map (·.layoutId) :=
    ⟨tracks_readRange m.frozen pos layout,
      fun arith => settles_readRange (short_in short arith) within near layout⟩
  refine range.bind fun range ⟨_, item⟩ => ?_
  refine .of_constant (fun _ => rfl) ((settles_refuseIf ..).bind fun _ few => settles_ok ?_)
  exact ⟨Nat.le_of_not_lt few, item⟩

end Within

theorem sound_readIntItems (layout : Layout) (range : RangeView) :
    Sound (fun arith => (metadataIn m arith).readIntItems layout range) fun _ => True := by
  refine .ite (sound_ok trivial) (.collect (fun i => ?_) _)
  have element : Sound (fun arith => (metadataIn m arith).frozen.elementPos range i)
      fun _ => True :=
    ⟨tracks_elementPos m.frozen range i,
      fun _ => (settles_elementPos range i).mono fun _ _ => trivial⟩
  exact element.bind fun pos _ => sound_readIntegral short pos _

end Steps

section Accessors

variable (short : 8 * m.frozen.bytes.length < wordLimit)
include short

theorem sound_readInt (id : Int16) :
    Sound (fun arith => (metadataIn m arith).readInt id) fun _ => True := by
  refine (sound_field id).bind fun view _ => ?_
  refine .bind (.of_constant (fun _ => rfl) (settles_okOr ..)) fun ⟨field, pos⟩ _ => ?_
  exact (sound_layout _).bind fun layout _ => sound_readIntegral short pos _

theorem sound_readOptionalInt (id : Int16) :
    Sound (fun arith => (metadataIn m arith).readOptionalInt id) fun _ => True := by
  refine (sound_field id).bind fun view within => ?_
  rcases view with _ | ⟨field, pos⟩
  · exact sound_ok trivial
  refine (sound_layout _).bind fun layout _ => ?_
  refine (sound_readOptional short (within field pos rfl) (by decide) layout).bind fun opt _ => ?_
  refine .ite (sound_ok trivial) ?_
  cases opt.valueLayoutId with
  | none => exact sound_ok trivial
  | some id =>
    refine (sound_layout id).bind fun layout _ => ?_
    exact (sound_readIntegral short _ _).bind fun _ _ => sound_ok trivial

theorem sound_readOptionalU32 (id : Int16) (name : String) :
    Sound (fun arith => (metadataIn m arith).readOptionalU32 id name) fun _ => True := by
  refine (sound_readOptionalInt short id).bind fun value _ => ?_
  cases value with
  | none => exact sound_ok trivial
  | some value => exact (sound_u32Of ..).bind fun _ _ => sound_ok trivial

/-- A list lies in a root field or in an optional there. -/
theorem sound_resolveList (id : Int16) :
    Sound (fun arith => (metadataIn m arith).resolveList id) fun resolved =>
      ∀ layout pos, resolved = some (layout, pos) → Within (reach + reach) pos := by
  refine (sound_field id).bind fun view within => ?_
  rcases view with _ | ⟨field, pos⟩
  · exact sound_ok (by simp)
  have here := within field pos rfl
  refine (sound_layout _).bind fun outer _ => ?_
  refine (sound_kind outer).bind fun kind _ => ?_
  have bare : Sound (fun _ => (.ok (some (outer, pos)) : Result (Option (Layout × Pos))))
      fun resolved => ∀ layout pos, resolved = some (layout, pos) → Within (reach + reach) pos := by
    refine sound_ok fun _ _ same => ?_
    cases same
    exact here.mono (Nat.le_add_right ..)
  cases kind with
  | optional value =>
    refine (sound_readOptional short here (by decide) outer).bind fun opt inner => ?_
    refine .ite (sound_ok (by simp)) ?_
    cases value with
    | none => exact sound_ok (by simp)
    | some id =>
      refine (sound_layout id).bind fun layout _ => sound_ok fun _ _ same => ?_
      cases same
      exact inner
  | _ => exact bare

theorem sound_readIntList (id : Int16) (cap : Nat) :
    Sound (fun arith => (metadataIn m arith).readIntList id cap) fun _ => True := by
  refine (sound_resolveList short id).bind fun resolved within => ?_
  rcases resolved with _ | ⟨layout, pos⟩
  · exact sound_ok trivial
  refine (sound_kind layout).bind fun kind _ => ?_
  refine (sound_readCappedRange short (within layout pos rfl) (by decide) ..).bind fun range _ => ?_
  cases kind with
  | array item =>
    refine (sound_layout item).bind fun itemLayout _ => ?_
    refine .bind (.of_constant (fun _ => rfl) (settles_refuseIf ..)) fun _ _ => ?_
    exact sound_readIntItems short itemLayout range
  | string => exact sound_ok trivial
  | _ => exact .of_constant (fun _ => rfl) (settles_fail ..)

theorem sound_readU32List (id : Int16) :
    Sound (fun arith => (metadataIn m arith).readU32List id) fun _ => True :=
  (sound_readIntList short id _).bind fun _ _ => .collect (fun _ => sound_u32Of ..) _

theorem sound_readU64List (id : Int16) :
    Sound (fun arith => (metadataIn m arith).readU64List id) fun _ => True :=
  (sound_readIntList short id _).bind fun _ _ => sound_ok trivial

theorem sound_blockCategories :
    Sound (fun arith => (metadataIn m arith).blockCategories) fun _ => True :=
  (sound_readIntList short _ _).bind fun _ _ => .collect (fun _ => sound_u32Of ..) _

section Struct

variable {pos : Pos} {bound : Nat} (within : Within bound pos) (near : bound + reach ≤ clear)
include within near

theorem sound_readStructBool (layout : Layout) (id : Int16) :
    Sound (fun arith => (metadataIn m arith).readStructBool pos layout id) fun _ => True := by
  unfold Metadata.readStructBool
  cases layout.field id with
  | none => exact sound_ok trivial
  | some field =>
    refine (sound_layout _).bind fun own _ => ?_
    refine (sound_child within (Nat.le_of_add_right_le near) field).bind fun at_ _ => ?_
    exact (sound_readIntegral short at_ _).bind fun _ _ => sound_ok trivial

theorem sound_readStructOptionalU32 (layout : Layout) (id : Int16) :
    Sound (fun arith => (metadataIn m arith).readStructOptionalU32 pos layout id) fun _ => True := by
  unfold Metadata.readStructOptionalU32
  cases layout.field id with
  | none => exact sound_ok trivial
  | some field =>
    refine (sound_layout _).bind fun outer _ => ?_
    refine (sound_child within (Nat.le_of_add_right_le near) field).bind fun at_ inner => ?_
    refine (sound_kind outer).bind fun kind _ => ?_
    have word (at_ : Pos) (bits : UInt16) (reason : Nat → Error) : Sound
        (fun arith => (metadataIn m arith).frozen.readIntegral at_ bits >>= fun v =>
          Metadata.u32Of v (reason v) >>= fun word =>
          (pure (some word) : Result (Option UInt32))) fun _ => True :=
      (sound_readIntegral short at_ bits).bind fun _ _ =>
        (sound_u32Of ..).bind fun _ _ => sound_ok trivial
    cases kind with
    | optional value =>
      refine (sound_readOptional short inner near outer).bind fun opt _ => ?_
      refine .ite (sound_ok trivial) ?_
      cases value with
      | none => exact sound_ok trivial
      | some id => exact (sound_layout id).bind fun own _ => word _ _ _
    | _ => exact word _ _ _

theorem sound_readStructString (layout : Layout) (id : Int16) :
    Sound (fun arith => (metadataIn m arith).readStructString pos layout id) fun _ => True := by
  unfold Metadata.readStructString
  cases layout.field id with
  | none => exact sound_ok trivial
  | some field =>
    refine (sound_layout _).bind fun own _ => ?_
    refine (sound_child within (Nat.le_of_add_right_le near) field).bind fun at_ inner => ?_
    exact sound_readStringBytes short inner near own

theorem sound_readStructIntList (layout : Layout) (id : Int16) (cap : Nat) :
    Sound (fun arith => (metadataIn m arith).readStructIntList pos layout id cap)
      fun _ => True := by
  unfold Metadata.readStructIntList
  cases layout.field id with
  | none => exact sound_ok trivial
  | some field =>
    refine (sound_layout _).bind fun own _ => ?_
    refine (sound_kind own).bind fun kind _ => ?_
    refine (sound_child within (Nat.le_of_add_right_le near) field).bind fun at_ inner => ?_
    refine (sound_readCappedRange short inner near ..).bind fun range _ => ?_
    cases kind with
    | array item => exact (sound_layout item).bind fun itemLayout _ =>
        sound_readIntItems short itemLayout range
    | string => exact sound_ok trivial
    | _ => exact .of_constant (fun _ => rfl) (settles_fail ..)

theorem sound_readOptions (layout : Layout) :
    Sound (fun arith => Metadata.fsOptions.readOptions (metadataIn m arith) layout pos)
      fun _ => True := by
  have flag := sound_readStructBool short within near layout
  have word := sound_readStructOptionalU32 short within near layout
  refine (flag 1).bind fun _ _ => (word 2).bind fun _ _ => ?_
  refine (flag 3).bind fun _ _ => (flag 4).bind fun _ _ => (flag 5).bind fun _ _ => ?_
  refine (word 6).bind fun _ _ => (flag 7).bind fun _ _ => (flag 8).bind fun _ _ => ?_
  exact sound_ok trivial

end Struct

theorem sound_readStructOptionalString {pos : Pos} {bound : Nat} (within : Within bound pos)
    (near : bound + reach + reach ≤ clear) (layout : Layout) (id : Int16) :
    Sound (fun arith => (metadataIn m arith).readStructOptionalString pos layout id)
      fun _ => True := by
  unfold Metadata.readStructOptionalString
  cases layout.field id with
  | none => exact sound_ok trivial
  | some field =>
    have low : bound + reach ≤ clear := Nat.le_of_add_right_le near
    refine (sound_layout _).bind fun outer _ => ?_
    refine (sound_child within (Nat.le_of_add_right_le low) field).bind fun at_ inner => ?_
    refine (sound_kind outer).bind fun kind _ => ?_
    cases kind with
    | optional value =>
      refine (sound_readOptional short inner low outer).bind fun opt content => ?_
      refine .ite (sound_ok trivial) ?_
      cases value with
      | none => exact sound_ok trivial
      | some id =>
        refine (sound_layout id).bind fun own _ => ?_
        exact (sound_readStringBytes short content near own).bind fun _ _ => sound_ok trivial
    | _ => exact (sound_readStringBytes short inner low outer).bind fun _ _ => sound_ok trivial

theorem sound_fsOptions : Sound (fun arith => (metadataIn m arith).fsOptions) fun _ => True := by
  refine (sound_field Ids.options).bind fun view within => ?_
  rcases view with _ | ⟨field, pos⟩
  · exact sound_ok trivial
  have here := within field pos rfl
  refine (sound_layout _).bind fun outer _ => ?_
  refine (sound_kind outer).bind fun kind _ => ?_
  cases kind with
  | optional value =>
    refine (sound_readOptional short here (by decide) outer).bind fun opt inner => ?_
    refine .ite (sound_ok trivial) ?_
    cases value with
    | none => exact sound_ok trivial
    | some id => exact (sound_layout id).bind fun own _ =>
        sound_readOptions short inner (by decide) own
  | _ => exact sound_readOptions short here (by decide) outer

theorem sound_sharedFilesTable :
    Sound (fun arith => (metadataIn m arith).sharedFilesTable) fun _ => True := by
  refine (sound_readU32List short _).bind fun raw _ => ?_
  refine (sound_fsOptions short).bind fun options _ => ?_
  exact .ite (.of_constant (fun _ => rfl) (settles_expandSharedFiles ..)) (sound_ok trivial)

theorem sound_readStringTable (id : Int16) :
    Sound (fun arith => (metadataIn m arith).readStringTable id) fun _ => True := by
  refine (sound_field id).bind fun view within => ?_
  rcases view with _ | ⟨field, pos⟩
  · exact sound_ok trivial
  refine (sound_layout _).bind fun outer _ => ?_
  refine (sound_kind outer).bind fun kind _ => ?_
  cases kind with
  | optional value =>
    refine (sound_readOptional short (within field pos rfl) (by decide) outer).bind
      fun opt inner => ?_
    refine .ite (sound_ok trivial) ?_
    cases value with
    | none => exact sound_ok trivial
    | some id =>
      refine (sound_layout id).bind fun own _ => ?_
      refine (sound_readStructString short inner (by decide) own 1).bind fun _ _ => ?_
      refine (sound_readStructOptionalString short inner (by decide) own 2).bind fun _ _ => ?_
      refine (sound_readStructIntList short inner (by decide) own 3 _).bind fun _ _ => ?_
      refine (sound_readStructBool short inner (by decide) own 4).bind fun _ _ => ?_
      refine .bind (.collect (fun _ => sound_u32Of ..) _) fun _ _ => ?_
      refine .bind (.of_constant (fun _ => rfl) (settles_decodeStringTable ..)) fun _ _ => ?_
      exact sound_ok trivial
  | _ => exact .of_constant (fun _ => rfl) (settles_fail ..)

end Accessors

end Rdwarfs.Guarantees.NearAccessors
