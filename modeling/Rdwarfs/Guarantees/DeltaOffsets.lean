import Rdwarfs.Guarantees.ChunkTable
import Rdwarfs.Guarantees.OpenedFilesystem
import Rdwarfs.Guarantees.StringTables

/-!
# Offsets summed from deltas

A packed column stores the steps between its offsets, and the sums that bring the offsets back
wrap at 32 bits. Nothing looks at the sums themselves: the offsets are only compared, neighbour
with neighbour, by what uses them. That is enough, since a sum that wraps falls below the one
before it.
-/
namespace Rdwarfs.Guarantees.DeltaOffsets

open Lib.Machine Source Source.Metadata Metadata Source.Fs ChunkTable OpenedFilesystem StringTables

section Sums

variable {deltas offsets : List UInt32} {limit : Nat}

/-- The first `count` deltas added up, as naturals. -/
def total (deltas : List UInt32) (count : Nat) : Nat :=
  ((deltas.take count).map UInt32.toNat).sum

theorem total_succ {k : Nat} {delta : UInt32} (here : deltas[k]? = some delta) :
    total deltas (k + 1) = total deltas k + delta.toNat := by
  obtain ⟨below, rfl⟩ := List.getElem?_eq_some_iff.mp here
  rw [total, List.take_succ_eq_append_getElem below, List.map_append, List.sum_append,
    List.map_singleton, List.sum_singleton, total]

/-- Each offset is the sum of the deltas up to its own, in the naturals, and at most `limit`; no
addition on the way there left 32 bits. -/
structure Summed (deltas offsets : List UInt32) (limit : Nat) : Prop where
  count : offsets.length = deltas.length
  sum : ∀ (k : Nat) (offset : UInt32), offsets[k]? = some offset →
    offset.toNat = total deltas (k + 1)
  inside : ∀ (k : Nat) (offset : UInt32), offsets[k]? = some offset → offset.toNat ≤ limit
  unwrapped : ∀ (k : Nat) (delta : UInt32), deltas[k]? = some delta →
    total deltas k + delta.toNat < 2 ^ 32

/-- No offset is below the one before it. -/
def Ascends (offsets : List UInt32) : Prop :=
  ∀ (k : Nat) (first second : UInt32), offsets[k]? = some first → offsets[k + 1]? = some second →
    first.toNat ≤ second.toNat

/-- A sum that wraps is below what was added to. -/
theorem toNat_add_of_le {acc delta : UInt32} (ordered : acc.toNat ≤ (acc + delta).toNat) :
    (acc + delta).toNat = acc.toNat + delta.toNat := by
  have accWord := acc.toNat_lt
  have deltaWord := delta.toNat_lt
  rw [UInt32.toNat_add] at ordered ⊢
  omega

theorem length_prefixSumFrom (acc : UInt32) (deltas : List UInt32) :
    (prefixSumFrom acc deltas).length = deltas.length := by
  induction deltas generalizing acc with
  | nil => rfl
  | cons delta rest ih => rw [prefixSumFrom, List.length_cons, ih, List.length_cons]

/-- As long as the sums ascend, each step added its delta and nothing else. -/
theorem prefixSumFrom_total {acc : UInt32} (ascends : Ascends (acc :: prefixSumFrom acc deltas))
    {k : Nat} {offset : UInt32} (found : (prefixSumFrom acc deltas)[k]? = some offset) :
    offset.toNat = acc.toNat + total deltas (k + 1) := by
  induction deltas generalizing acc k with
  | nil => simp [prefixSumFrom] at found
  | cons delta rest ih =>
    have step : (acc + delta).toNat = acc.toNat + delta.toNat :=
      toNat_add_of_le (ascends 0 _ _ rfl rfl)
    have later : Ascends ((acc + delta) :: prefixSumFrom (acc + delta) rest) :=
      fun k first second here next => ascends (k + 1) first second here next
    cases k with
    | zero =>
      cases found
      simp [step, total]
    | succ k =>
      rw [prefixSumFrom, List.getElem?_cons_succ] at found
      rw [ih later found, step, Nat.add_assoc]
      rfl

/-- The first sum adds to nothing, so it is enough that the sums ascend among themselves. -/
theorem ascends_cons_zero (ascends : Ascends offsets) : Ascends (0 :: offsets) := by
  intro k first second here next
  cases k with
  | zero =>
    cases here
    exact Nat.zero_le _
  | succ k => exact ascends k first second here next

theorem summed_of_ascends (ascends : Ascends (inclusivePrefixSumU32 deltas))
    (inside : ∀ (k : Nat) (offset : UInt32), (inclusivePrefixSumU32 deltas)[k]? = some offset →
      offset.toNat ≤ limit) : Summed deltas (inclusivePrefixSumU32 deltas) limit := by
  have sum : ∀ (k : Nat) (offset : UInt32), (inclusivePrefixSumU32 deltas)[k]? = some offset →
      offset.toNat = total deltas (k + 1) := by
    intro k offset found
    rw [prefixSumFrom_total (ascends_cons_zero ascends) found]
    exact Nat.zero_add _
  have count : (inclusivePrefixSumU32 deltas).length = deltas.length := length_prefixSumFrom 0 deltas
  refine ⟨count, sum, inside, fun k delta here => ?_⟩
  have below : k < (inclusivePrefixSumU32 deltas).length := by
    rw [count]
    exact (List.getElem?_eq_some_iff.mp here).1
  rw [← total_succ here, ← sum k _ (List.getElem?_eq_getElem below)]
  exact UInt32.toNat_lt _

end Sums

section Checks

variable {deltas : List UInt32}

/-- Every entry of a table of two or more is in one of its pairs. -/
theorem summed_of_built {chunks : List Chunk} {hole : Option UInt32} {blockSize : UInt32}
    {large : List UInt64} {ends : List Nat} (some : 2 ≤ deltas.length)
    (built : buildChunkEnds chunks (inclusivePrefixSumU32 deltas) hole blockSize large = .ok ends) :
    Summed deltas (inclusivePrefixSumU32 deltas) chunks.length := by
  have pairs := buildChunkEnds_returns.mp ⟨ends, built⟩
  have ascends : Ascends (inclusivePrefixSumU32 deltas) :=
    fun k first second here next => (pairs k first second here next).ordered
  refine summed_of_ascends ascends fun k offset found => ?_
  cases k with
  | zero =>
    have below : 1 < (inclusivePrefixSumU32 deltas).length := by
      rw [inclusivePrefixSumU32, length_prefixSumFrom]
      exact some
    have pair := pairs 0 offset _ found (List.getElem?_eq_getElem below)
    exact Nat.le_trans pair.ordered pair.inside
  | succ k =>
    have below : k < (inclusivePrefixSumU32 deltas).length :=
      Nat.lt_of_succ_lt (List.getElem?_eq_some_iff.mp found).1
    exact (pairs k _ offset (List.getElem?_eq_getElem below) found).inside

/-- The sums of a packed index come behind a zero, so each ends a window. -/
theorem summed_of_decoded {buffer : Bytes} {symtab : Option Bytes} {table : StringTable}
    (decoded : Metadata.decodeStringTable buffer symtab deltas true = .ok table) :
    Summed deltas (inclusivePrefixSumU32 deltas) buffer.length := by
  have windowed : ∀ (k : Nat) (first second : UInt32),
      (0 :: inclusivePrefixSumU32 deltas)[k]? = some first →
      (0 :: inclusivePrefixSumU32 deltas)[k + 1]? = some second →
        first.toNat ≤ second.toNat ∧ second.toNat ≤ buffer.length := by
    intro k first second here next
    have two : ¬ (offsetsOf deltas true).length < 2 := by
      have below := (List.getElem?_eq_some_iff.mp next).1
      simp only [offsetsOf, if_true]
      omega
    rw [decodeStringTable_eq, if_neg two] at decoded
    obtain ⟨symbols, _, folded⟩ := bind_eq_ok.mp decoded
    have member : (first, second) ∈ windows (offsetsOf deltas true) :=
      List.mem_of_getElem? ((windows_getElem? k).mpr ⟨here, next⟩)
    have kept := pushWindows_inside folded (first, second) member
    simp only [Stray, not_or, Nat.not_lt] at kept
    exact kept
  refine summed_of_ascends (fun k first second here next => ?_) fun k offset found => ?_
  · exact (windowed (k + 1) first second here next).1
  · have below := (List.getElem?_eq_some_iff.mp found).1
    have before : ∃ first, (0 :: inclusivePrefixSumU32 deltas)[k]? = some first :=
      ⟨_, List.getElem?_eq_getElem (Nat.lt_succ_of_lt below)⟩
    obtain ⟨first, here⟩ := before
    exact (windowed k first offset here found).2

end Checks

/-- No sum wrapped in a chunk table or a string index that was accepted. -/
theorem accepted_sums_exact :
    (∀ (image : Format.Image) (tables : Tables) (fs : Filesystem),
      tables.options.packedChunkTable = true → 2 ≤ tables.chunkTable.length →
      Filesystem.ofTables image tables = .ok fs →
        Summed tables.chunkTable fs.chunkTable fs.chunks.length) ∧
    (∀ (chunks : List Chunk) (deltas : List UInt32) (hole : Option UInt32) (blockSize : UInt32)
      (large : List UInt64) (ends : List Nat), 2 ≤ deltas.length →
      buildChunkEnds chunks (inclusivePrefixSumU32 deltas) hole blockSize large = .ok ends →
        Summed deltas (inclusivePrefixSumU32 deltas) chunks.length) ∧
    ∀ (buffer : Bytes) (symtab : Option Bytes) (index : List UInt32) (table : StringTable),
      Metadata.decodeStringTable buffer symtab index true = .ok table →
        offsetsOf index true = 0 :: inclusivePrefixSumU32 index ∧
          Summed index (inclusivePrefixSumU32 index) buffer.length := by
  refine ⟨fun image tables fs packed some made => ?_, fun _ _ _ _ _ _ => summed_of_built,
    fun _ _ _ _ decoded => ⟨rfl, summed_of_decoded decoded⟩⟩
  simp only [Filesystem.ofTables, packed, if_true, bind_eq_ok, pure_eq_ok, Except.ok.injEq] at made
  obtain ⟨_, _, ends, built, rfl⟩ := made
  exact summed_of_built some built

section Inputs

/-- The two chunks of `climbing` as two files, their table stored as deltas. -/
def packedTables : Tables :=
  { climbingTables with options := { packedChunkTable := true }, chunkTable := [0, 1, 1] }

/-- Tables of three entries, and names `a` and `bc` stored as the steps one and two. -/
theorem accepted_sums_exact_small :
    Summed [0, 1, 1] [0, 1, 2] 2 ∧ Summed [0, 1, 1] [0, 1, 2] 2 ∧ Summed [1, 2] [1, 3] 3 :=
  ⟨accepted_sums_exact.1 climbingImage packedTables
      { filesystem climbingImage packedTables [2, 3] ⟨0, 2, 1, 2, 2, 2, 2⟩ with
        chunkTable := [0, 1, 2] } rfl (by decide) rfl,
    accepted_sums_exact.2.1 [⟨0, 0, 2⟩, ⟨0, 2, 3⟩] [0, 1, 1] none 16 [] [2, 3] (by decide) rfl,
    (accepted_sums_exact.2.2 [97, 98, 99] none [1, 2]
      { data := [97, 98, 99], offsets := [0, 1, 3] } rfl).2⟩

end Inputs

end Rdwarfs.Guarantees.DeltaOffsets
