import Rdwarfs.Source.Fs.Tables

/-!
# The cumulative chunk ends

`build_chunk_ends` walks the adjacent pairs of `chunk_table`. Each pair is the chunk range
of one file, and the ends of its chunks count from zero; later files lie behind it in the
table, so they leave its ends alone.
-/
namespace Rdwarfs.Guarantees.ChunkEnds

open Lib.Machine Source Source.Metadata Source.Fs

/-- `ends` are the running ends of `chunks`, the first of which starts at `cursor`. -/
inductive Runs (length : Chunk → Result Nat) : Nat → List Chunk → List Nat → Prop
  | nil (cursor : Nat) : Runs length cursor [] []
  | cons {cursor len : Nat} {chunk : Chunk} {chunks : List Chunk} {ends : List Nat}
      (here : length chunk = .ok len) (fits : cursor + len < wordLimit)
      (rest : Runs length (cursor + len) chunks ends) :
      Runs length cursor (chunk :: chunks) ((cursor + len) :: ends)

variable {length : Chunk → Result Nat}

theorem cumulativeEnds_eq_ok {cursor : Nat} {chunks : List Chunk} {ends : List Nat} :
    cumulativeEnds length cursor chunks = .ok ends ↔ Runs length cursor chunks ends := by
  induction chunks generalizing cursor ends with
  | nil =>
    constructor
    · rintro ⟨⟩
      exact .nil cursor
    · rintro ⟨⟩
      rfl
  | cons chunk chunks ih =>
    simp only [cumulativeEnds, bind_eq_ok, okOr_eq_ok, checkedAddWord_eq_some, pure_eq_ok,
      Except.ok.injEq]
    constructor
    · rintro ⟨len, here, stop, ⟨fits, rfl⟩, others, rest, rfl⟩
      exact .cons here fits (ih.mp rest)
    · rintro (_ | ⟨here, fits, rest⟩)
      exact ⟨_, here, _, ⟨fits, rfl⟩, _, ih.mpr rest, rfl⟩

namespace Runs

theorem length_eq {cursor : Nat} {chunks : List Chunk} {ends : List Nat}
    (runs : Runs length cursor chunks ends) : ends.length = chunks.length := by
  induction runs with
  | nil => rfl
  | cons _ _ _ ih => simp [ih]

end Runs

section Fill

theorem overwrite_length {ends values : List Nat} {start : Nat}
    (room : start + values.length ≤ ends.length) :
    (overwrite ends start values).length = ends.length := by
  simp only [overwrite, List.length_append, List.length_take, List.length_drop]
  omega

theorem overwrite_before {ends values : List Nat} {start i : Nat} (before : i < start)
    (room : start ≤ ends.length) : (overwrite ends start values)[i]? = ends[i]? := by
  rw [overwrite, List.append_assoc, List.getElem?_append_left (by simp; omega),
    List.getElem?_take_of_lt before]

theorem overwrite_inside {ends values : List Nat} {start j : Nat} (inside : j < values.length)
    (room : start ≤ ends.length) : (overwrite ends start values)[start + j]? = values[j]? := by
  have front : (ends.take start).length = start := List.length_take_of_le room
  rw [overwrite, List.append_assoc, List.getElem?_append_right (by omega), front,
    Nat.add_sub_cancel_left, List.getElem?_append_left inside]

/-- Everything before the first range is left alone, and every pair of the table gets the
running ends of its own chunks. -/
theorem fillChunkEnds_slots {chunks : List Chunk} {table : List UInt32} {ends final : List Nat}
    (filled : fillChunkEnds chunks length table ends = .ok final)
    (size : ends.length = chunks.length) :
    (∀ i, (∀ first ∈ table.head?, i < first.toNat) → final[i]? = ends[i]?) ∧
    ∀ (k : Nat) (start stop : UInt32), table[k]? = some start → table[k + 1]? = some stop →
      ∃ values, Runs length 0 ((chunks.drop start.toNat).take (stop.toNat - start.toNat)) values ∧
        ∀ j, j < values.length → final[start.toNat + j]? = values[j]? := by
  induction table generalizing ends with
  | nil => exact ⟨fun i _ => by cases filled; rfl, by simp⟩
  | cons first table ih =>
    cases table with
    | nil =>
      refine ⟨fun i _ => by cases filled; rfl, fun k start stop _ next => ?_⟩
      simp at next
    | cons second rest =>
      simp only [fillChunkEnds, bind_eq_ok, refuseIf_eq_ok] at filled
      obtain ⟨_, inside, values, computed, filled⟩ := filled
      have runs := cumulativeEnds_eq_ok.mp computed
      have count : values.length = second.toNat - first.toNat := by
        rw [runs.length_eq, List.length_take, List.length_drop]
        omega
      have room : first.toNat + values.length ≤ ends.length := by omega
      obtain ⟨untouched, slots⟩ := ih filled (by rw [overwrite_length room, size])
      refine ⟨fun i before => ?_, fun k start stop here next => ?_⟩
      · have lt := before first (by simp)
        rw [untouched i (by simpa using by omega), overwrite_before lt (by omega)]
      · cases k with
        | zero =>
          cases here
          cases next
          refine ⟨values, runs, fun j lt => ?_⟩
          rw [untouched _ (by simpa using by omega), overwrite_inside lt (by omega)]
        | succ k => exact slots k start stop here next

/-- The ends of one file, as `open` builds them. -/
theorem buildChunkEnds_slot {chunks : List Chunk} {table : List UInt32} {hole : Option UInt32}
    {blockSize : UInt32} {holes : List UInt64} {final : List Nat}
    (built : buildChunkEnds chunks table hole blockSize holes = .ok final) {k : Nat}
    {start stop : UInt32} (here : table[k]? = some start) (next : table[k + 1]? = some stop) :
    ∃ values, Runs (chunkLogicalLen hole blockSize holes) 0
        ((chunks.drop start.toNat).take (stop.toNat - start.toNat)) values ∧
      (final.drop start.toNat).take values.length = values := by
  obtain ⟨values, runs, agree⟩ :=
    (fillChunkEnds_slots built (by simp)).2 k start stop here next
  refine ⟨values, runs, List.ext_getElem? fun j => ?_⟩
  rw [List.getElem?_take]
  split
  · rename_i inside
    rw [List.getElem?_drop, agree j inside]
  · rename_i beyond
    exact (List.getElem?_eq_none_iff.mpr (Nat.le_of_not_lt beyond)).symm

theorem fillChunkEnds_length {chunks : List Chunk} {table : List UInt32} {ends final : List Nat}
    (filled : fillChunkEnds chunks length table ends = .ok final)
    (size : ends.length = chunks.length) : final.length = chunks.length := by
  induction table generalizing ends with
  | nil =>
    cases filled
    exact size
  | cons first table ih =>
    cases table with
    | nil =>
      cases filled
      exact size
    | cons second rest =>
      simp only [fillChunkEnds, bind_eq_ok, refuseIf_eq_ok] at filled
      obtain ⟨_, inside, values, computed, filled⟩ := filled
      have count := (cumulativeEnds_eq_ok.mp computed).length_eq
      rw [List.length_take, List.length_drop] at count
      exact ih filled (by rw [overwrite_length (by omega), size])

theorem buildChunkEnds_length {chunks : List Chunk} {table : List UInt32} {hole : Option UInt32}
    {blockSize : UInt32} {holes : List UInt64} {final : List Nat}
    (built : buildChunkEnds chunks table hole blockSize holes = .ok final) :
    final.length = chunks.length := fillChunkEnds_length built (by simp)

end Fill

end Rdwarfs.Guarantees.ChunkEnds
