import Rdwarfs.Guarantees.ChunkEnds
import Rdwarfs.Source.Fs.Read

/-!
# The chunk-end table

`build_chunk_ends` accepts a table exactly when its adjacent pairs are ranges of measurable chunks
whose lengths add up within the word. Then the entry of a chunk is the sum of the lengths in its
range up to and including its own, so the entries of a range can be searched by bisection.
-/
namespace Rdwarfs.Guarantees.ChunkTable

open Lib.Machine Source Source.Metadata Source.Fs ChunkEnds

/-- The length of a chunk, zero where it has none. -/
def lengthOf (length : Chunk → Result Nat) (chunk : Chunk) : Nat :=
  match length chunk with
  | .ok len => len
  | .error _ => 0

/-- The chunks of one pair of the table. -/
def slotOf (chunks : List Chunk) (first second : UInt32) : List Chunk :=
  (chunks.drop first.toNat).take (second.toNat - first.toNat)

/-- The bytes of the chunks from `first` to `i`, both included. -/
def reached (length : Chunk → Result Nat) (chunks : List Chunk) (first i : Nat) : Nat :=
  (((chunks.drop first).take (i + 1 - first)).map (lengthOf length)).sum

section Sums

variable {length : Chunk → Result Nat}

theorem lengthOf_eq {chunk : Chunk} {len : Nat} (measured : length chunk = .ok len) :
    lengthOf length chunk = len := by
  rw [lengthOf, measured]

/-- The running ends exist exactly when every chunk has a length and the last end fits. -/
theorem runs_iff {cursor : Nat} (word : cursor < wordLimit) {chunks : List Chunk} :
    (∃ ends, Runs length cursor chunks ends) ↔
      (∀ chunk ∈ chunks, ∃ len, length chunk = .ok len) ∧
        cursor + (chunks.map (lengthOf length)).sum < wordLimit := by
  induction chunks generalizing cursor with
  | nil => exact ⟨fun _ => ⟨by simp, by simpa using word⟩, fun _ => ⟨[], .nil cursor⟩⟩
  | cons chunk rest ih =>
    simp only [List.forall_mem_cons, List.map_cons, List.sum_cons]
    constructor
    · rintro ⟨_, _ | ⟨here, fits, runs⟩⟩
      have later := (ih fits).mp ⟨_, runs⟩
      rw [lengthOf_eq here, ← Nat.add_assoc]
      exact ⟨⟨⟨_, here⟩, later.1⟩, later.2⟩
    · rintro ⟨⟨⟨len, here⟩, others⟩, total⟩
      rw [lengthOf_eq here, ← Nat.add_assoc] at total
      have fits : cursor + len < wordLimit := Nat.lt_of_le_of_lt (Nat.le_add_right _ _) total
      obtain ⟨ends, runs⟩ := (ih fits).mpr ⟨others, total⟩
      exact ⟨_, .cons here fits runs⟩

/-- The end of a chunk is the sum of the lengths up to its own. -/
theorem runs_getElem? {cursor : Nat} {chunks : List Chunk} {ends : List Nat}
    (runs : Runs length cursor chunks ends) {i : Nat} (inside : i < chunks.length) :
    ends[i]? = some (cursor + ((chunks.take (i + 1)).map (lengthOf length)).sum) := by
  induction runs generalizing i with
  | nil => simp at inside
  | @cons cursor len chunk rest ends here fits _ ih =>
    cases i with
    | zero => simp [lengthOf_eq here]
    | succ i =>
      rw [List.length_cons, Nat.add_lt_add_iff_right] at inside
      rw [List.getElem?_cons_succ, ih inside, List.take_succ_cons, List.map_cons, List.sum_cons,
        lengthOf_eq here, Nat.add_assoc]

theorem sum_take_le (values : List Nat) {i j : Nat} (le : i ≤ j) :
    (values.take i).sum ≤ (values.take j).sum := by
  obtain ⟨more, rfl⟩ := Nat.exists_eq_add_of_le le
  rw [List.take_add, List.sum_append]
  exact Nat.le_add_right _ _

/-- In an ordered list the elements before the partition point are those at or below the offset. -/
theorem lt_partitionPoint_iff {ends : List Nat} (sorted : ends.Pairwise (· ≤ ·)) (offset : Nat)
    {i stop : Nat} (at_ : ends[i]? = some stop) :
    i < partitionPoint (fun stop => decide (stop ≤ offset)) ends ↔ stop ≤ offset := by
  induction ends generalizing i with
  | nil => simp at at_
  | cons first rest ih =>
    obtain ⟨least, sorted⟩ := List.pairwise_cons.mp sorted
    by_cases behind : first ≤ offset
    · rw [partitionPoint, List.takeWhile_cons_of_pos (by simpa using behind), List.length_cons]
      cases i with
      | zero =>
        cases at_
        simp [behind]
      | succ i =>
        rw [Nat.add_lt_add_iff_right]
        exact ih sorted at_
    · rw [partitionPoint, List.takeWhile_cons_of_neg (by simpa using behind)]
      have above : offset < stop := by
        cases i with
        | zero =>
          cases at_
          omega
        | succ i =>
          have := least stop (List.mem_of_getElem? at_)
          omega
      simp [Nat.not_le.mpr above]

end Sums

section Table

variable (chunks : List Chunk) (hole : Option UInt32) (blockSize : UInt32) (large : List UInt64)

/-- A pair of the table that is a range of chunks, its holes decodable, its total in the word. -/
structure Admissible (first second : UInt32) : Prop where
  ordered : first.toNat ≤ second.toNat
  inside : second.toNat ≤ chunks.length
  holes : ∀ chunk ∈ slotOf chunks first second, hole = some chunk.block →
    ∃ len, holeLength chunk blockSize large = .ok len
  total : ((slotOf chunks first second).map
    (lengthOf (chunkLogicalLen hole blockSize large))).sum < wordLimit

/-- What the table holds for the chunks of one pair. -/
structure Tabled (ends : List Nat) (first second : UInt32) : Prop where
  sums : ∀ i, first.toNat ≤ i → i < second.toNat →
    ends[i]? = some (reached (chunkLogicalLen hole blockSize large) chunks first.toNat i)
  ascending : ∀ i j low high, first.toNat ≤ i → i ≤ j → j < second.toNat →
    ends[i]? = some low → ends[j]? = some high → low ≤ high
  within : ∀ offset, partitionPoint (fun stop => decide (stop ≤ offset))
    ((ends.drop first.toNat).take (second.toNat - first.toNat)) ≤ second.toNat - first.toNat
  search : ∀ offset i, first.toNat ≤ i → i < second.toNat →
    (i < first.toNat + partitionPoint (fun stop => decide (stop ≤ offset))
        ((ends.drop first.toNat).take (second.toNat - first.toNat)) ↔
      reached (chunkLogicalLen hole blockSize large) chunks first.toNat i ≤ offset)

variable {chunks hole blockSize large}

/-- Only holes can be without a length. -/
theorem measured_iff {slot : List Chunk} :
    (∀ chunk ∈ slot, ∃ len, chunkLogicalLen hole blockSize large chunk = .ok len) ↔
      ∀ chunk ∈ slot, hole = some chunk.block →
        ∃ len, holeLength chunk blockSize large = .ok len := by
  refine forall_congr' fun chunk => imp_congr_right fun _ => ?_
  unfold chunkLogicalLen
  by_cases here : hole = some chunk.block
  · simp [here]
  · simp [here]

/-- The pair at the front decides whether the loop goes on. -/
theorem cumulativeEnds_returns {first second : UInt32} :
    (∃ values, cumulativeEnds (chunkLogicalLen hole blockSize large) 0
        (slotOf chunks first second) = .ok values) ↔
      (∀ chunk ∈ slotOf chunks first second, hole = some chunk.block →
        ∃ len, holeLength chunk blockSize large = .ok len) ∧
      ((slotOf chunks first second).map
        (lengthOf (chunkLogicalLen hole blockSize large))).sum < wordLimit := by
  have positive : 0 < wordLimit := by decide
  simp only [cumulativeEnds_eq_ok]
  rw [runs_iff positive, measured_iff, Nat.zero_add]

theorem fillChunkEnds_returns {table : List UInt32} {ends : List Nat} :
    (∃ final, fillChunkEnds chunks (chunkLogicalLen hole blockSize large) table ends = .ok final) ↔
      ∀ (k : Nat) (first second : UInt32), table[k]? = some first → table[k + 1]? = some second →
        Admissible chunks hole blockSize large first second := by
  induction table generalizing ends with
  | nil => simp [fillChunkEnds]
  | cons first table ih =>
    cases table with
    | nil => simp [fillChunkEnds]
    | cons second rest =>
      simp only [fillChunkEnds, bind_eq_ok, refuseIf_eq_ok]
      constructor
      · rintro ⟨final, _, inside, values, computed, filled⟩ k one other here next
        have later := ih.mp ⟨final, filled⟩
        cases k with
        | zero =>
          cases here
          cases next
          obtain ⟨holes, total⟩ := cumulativeEnds_returns.mp ⟨values, computed⟩
          exact ⟨by omega, by omega, holes, total⟩
        | succ k => exact later k one other here next
      · intro admissible
        obtain ⟨ordered, inside, holes, total⟩ := admissible 0 first second rfl rfl
        obtain ⟨values, computed⟩ := cumulativeEnds_returns.mpr ⟨holes, total⟩
        obtain ⟨final, filled⟩ := ih.mpr fun k one other here next =>
          admissible (k + 1) one other here next
        exact ⟨final, (), by omega, values, computed, filled⟩

theorem buildChunkEnds_returns {table : List UInt32} :
    (∃ ends, buildChunkEnds chunks table hole blockSize large = .ok ends) ↔
      ∀ (k : Nat) (first second : UInt32), table[k]? = some first → table[k + 1]? = some second →
        Admissible chunks hole blockSize large first second := by
  unfold buildChunkEnds
  exact fillChunkEnds_returns

/-- The entries of one pair, from the ends that the loop wrote there. -/
theorem tabled_of_built {table : List UInt32} {ends : List Nat}
    (built : buildChunkEnds chunks table hole blockSize large = .ok ends) {k : Nat}
    {first second : UInt32} (here : table[k]? = some first) (next : table[k + 1]? = some second)
    (inside : second.toNat ≤ chunks.length) :
    Tabled chunks hole blockSize large ends first second := by
  obtain ⟨values, runs, own⟩ := buildChunkEnds_slot built here next
  have count : values.length = second.toNat - first.toNat := by
    rw [runs.length_eq, List.length_take, List.length_drop]
    omega
  rw [count] at own
  have at_ : ∀ i, first.toNat ≤ i → i < second.toNat →
      values[i - first.toNat]? = ends[i]? := by
    intro i low high
    rw [← own, List.getElem?_take_of_lt (by omega), List.getElem?_drop]
    congr 1
    omega
  have sums : ∀ i, first.toNat ≤ i → i < second.toNat → ends[i]? =
      some (reached (chunkLogicalLen hole blockSize large) chunks first.toNat i) := by
    intro i low high
    have short : i - first.toNat < ((chunks.drop first.toNat).take
        (second.toNat - first.toNat)).length := by
      rw [← runs.length_eq, count]
      omega
    rw [← at_ i low high, runs_getElem? runs short, Nat.zero_add, List.take_take, reached]
    congr 5
    omega
  have ascending : ∀ i j low high, first.toNat ≤ i → i ≤ j → j < second.toNat →
      ends[i]? = some low → ends[j]? = some high → low ≤ high := by
    intro i j low high from_ le till one other
    rw [sums i from_ (by omega)] at one
    rw [sums j (by omega) till] at other
    cases one
    cases other
    simp only [reached, List.map_take]
    exact sum_take_le _ (by omega)
  have sorted : values.Pairwise (· ≤ ·) := by
    rw [List.pairwise_iff_getElem]
    intro i j inI inJ lt
    have one := at_ (first.toNat + i) (by omega) (by omega)
    have other := at_ (first.toNat + j) (by omega) (by omega)
    rw [Nat.add_sub_cancel_left, List.getElem?_eq_getElem inI] at one
    rw [Nat.add_sub_cancel_left, List.getElem?_eq_getElem inJ] at other
    exact ascending _ _ _ _ (by omega) (by omega) (by omega) one.symm other.symm
  refine ⟨sums, ascending, fun offset => ?_, fun offset i low high => ?_⟩
  · rw [own, ← count]
    exact (List.takeWhile_sublist _).length_le
  · have stop := (at_ i low high).trans (sums i low high)
    rw [own, ← lt_partitionPoint_iff sorted offset stop]
    omega

/-- Adjacent pairs in order put the whole table in order. -/
theorem ordered_of_adjacent {table : List UInt32}
    (adjacent : ∀ (k : Nat) (first second : UInt32), table[k]? = some first →
      table[k + 1]? = some second → first.toNat ≤ second.toNat) {k later : Nat} (le : k ≤ later) {first last : UInt32}
    (here : table[k]? = some first) (there : table[later]? = some last) :
    first.toNat ≤ last.toNat := by
  obtain ⟨steps, rfl⟩ := Nat.exists_eq_add_of_le le
  induction steps generalizing last with
  | zero =>
    rw [Nat.add_zero, here] at there
    cases there
    exact Nat.le_refl _
  | succ steps ih =>
    have inside := (List.getElem?_eq_some_iff.mp there).1
    have before : table[k + steps]? = some table[k + steps] :=
      List.getElem?_eq_getElem (by omega)
    exact Nat.le_trans (ih (by omega) before) (adjacent (k + steps) _ _ before there)

end Table

/-- The table is built exactly for admissible pairs; then it holds the sums of every pair, and no
chunk is in two. -/
theorem chunk_end_table (chunks : List Chunk) (table : List UInt32) (hole : Option UInt32)
    (blockSize : UInt32) (large : List UInt64) :
    ((∃ ends, buildChunkEnds chunks table hole blockSize large = .ok ends) ↔
      ∀ (k : Nat) (first second : UInt32), table[k]? = some first → table[k + 1]? = some second →
        Admissible chunks hole blockSize large first second) ∧
    ∀ ends, buildChunkEnds chunks table hole blockSize large = .ok ends →
      ends.length = chunks.length ∧
      (∀ (k : Nat) (first second : UInt32), table[k]? = some first → table[k + 1]? = some second →
        Tabled chunks hole blockSize large ends first second) ∧
      ∀ (i k : Nat) (first second : UInt32) (k' : Nat) (first' second' : UInt32),
        table[k]? = some first → table[k + 1]? = some second → table[k']? = some first' →
        table[k' + 1]? = some second' → first.toNat ≤ i → i < second.toNat →
        first'.toNat ≤ i → i < second'.toNat → k = k' := by
  refine ⟨buildChunkEnds_returns, fun ends built => ?_⟩
  have admissible := buildChunkEnds_returns.mp ⟨ends, built⟩
  have adjacent := fun k first second here next => (admissible k first second here next).ordered
  refine ⟨buildChunkEnds_length built, ?_, ?_⟩
  · intro k first second here next
    exact tabled_of_built built here next (admissible k first second here next).inside
  · intro i k first second k' first' second' here next here' next' low high low' high'
    rcases Nat.lt_trichotomy k k' with before | same | after
    · have := ordered_of_adjacent adjacent (show k + 1 ≤ k' by omega) next here'
      omega
    · exact same
    · have := ordered_of_adjacent adjacent (show k' + 1 ≤ k by omega) next' here
      omega

/-- A hole of three blocks and seven bytes in front of five bytes of data. -/
theorem chunk_end_table_hole :
    ∃ ends, buildChunkEnds [⟨9, 7, 3⟩, ⟨0, 0, 5⟩] [0, 2] (some 9) 1024 [] = .ok ends ∧
      ends[1]? = some 3084 ∧
      partitionPoint (fun stop => decide (stop ≤ 3079)) ((ends.drop 0).take 2) ≤ 2 := by
  have built : buildChunkEnds [⟨9, 7, 3⟩, ⟨0, 0, 5⟩] [0, 2] (some 9) 1024 [] =
      .ok [3079, 3084] := by decide
  have tabled := ((chunk_end_table _ _ _ _ _).2 _ built).2.1 0 0 2 rfl rfl
  exact ⟨_, built, tabled.sums 1 (by decide) (by decide), tabled.within 3079⟩

end Rdwarfs.Guarantees.ChunkTable
