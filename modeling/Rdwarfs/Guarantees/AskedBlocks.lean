import Rdwarfs.Lib.Questions
import Rdwarfs.Guarantees.ReadContract

/-!
# Which blocks a read asks for

Those of its own file's chunks, and no more of a block than up to the end of the chunk.
-/
namespace Rdwarfs.Guarantees.AskedBlocks

open Lib.Machine Lib.Oracle Lib.Oracle.Prog Source Source.Metadata Source.Fs ReadContract

/-- What may be asked for because of `chunk` satisfies `p`. -/
def Allows (p : BlockQuery → Prop) (fs : Filesystem) (chunk : Chunk) : Prop :=
  fs.isHoleChunk chunk = false →
    ∀ needed, needed ≤ chunk.offset.toNat + chunk.size.toNat → p ⟨chunk.block, needed⟩

variable {p : BlockQuery → Prop} {fs : Filesystem}

theorem subWord_eq_ok {ε : Type} {x y difference : Nat}
    (done : (subWord x y : Res ε Nat) = .ok difference) : y ≤ x ∧ difference = x - y := by
  unfold subWord at done
  split at done
  · rename_i le
    cases done
    exact ⟨le, rfl⟩
  · cases done

theorem addWord_eq_ok {ε : Type} {x y sum : Nat} (done : (addWord x y : Res ε Nat) = .ok sum) :
    sum = x + y :=
  (Arith.add_checked_eq_ok.mp done).2.symm

theorem visit_copy {offset wantEnd room i blockStart blockEnd : Nat} {block : UInt32}
    (visited : fs.visit offset wantEnd room i = .ok (.copy block blockStart blockEnd)) :
    ∃ chunk, fs.chunks[i]? = some chunk ∧ fs.isHoleChunk chunk = false ∧ chunk.block = block ∧
      blockEnd ≤ chunk.offset.toNat + chunk.size.toNat := by
  simp only [Filesystem.visit, bind_eq_ok, index_eq_ok] at visited
  obtain ⟨chunk, here, chunkEnd, -, len, length, cursor, started, visited⟩ := visited
  refine ⟨chunk, here, ?_⟩
  split at visited
  · cases visited
  · split at visited
    · cases visited
    · simp only [bind_eq_ok] at visited
      obtain ⟨wanted, -, own, owned, span, spanned, visited⟩ := visited
      split at visited
      · cases visited
      · rename_i block_
        simp only [bind_eq_ok] at visited
        obtain ⟨first, begins, last, ends, same⟩ := visited
        cases same
        have hole : fs.isHoleChunk chunk = false := by simpa using block_
        rw [chunkLogicalLen_of_block hole, Except.ok.injEq] at length
        have start := subWord_eq_ok started
        have span_ := subWord_eq_ok spanned
        have own_ := subWord_eq_ok owned
        have begin_ := addWord_eq_ok begins
        have end_ := addWord_eq_ok ends
        exact ⟨hole, rfl, by omega⟩

theorem reach_asks {α : Type} {held : Option (UInt32 × Bytes)} {query : BlockQuery}
    {next : Bytes → Reading α} (here : p query) (onward : ∀ bytes, Asks p (next bytes)) :
    Asks p (Filesystem.reach held query >>= next) := by
  cases Filesystem.reach_cases held query next with
  | inl asks =>
    rw [asks, question_bind]
    exact .ask here onward
  | inr kept =>
    obtain ⟨bytes, -, -, same⟩ := kept
    rw [same]
    exact onward bytes

theorem readChunks_asks (offset wantEnd : Nat) {indices : List Nat}
    (allows : ∀ i ∈ indices, ∀ chunk, fs.chunks[i]? = some chunk → Allows p fs chunk)
    (written remaining : Bytes) (held : Option (UInt32 × Bytes)) :
    Asks p (fs.readChunks offset wantEnd indices written remaining held) := by
  induction indices generalizing written remaining held with
  | nil => exact .done _
  | cons i rest ih =>
    have onward := ih fun j member => allows j (List.mem_cons_of_mem i member)
    rw [Filesystem.readChunks]
    split
    · exact .done _
    · apply asks_lift_bind
      intro visited found
      cases visited with
      | stop => exact .done _
      | skip => exact onward _ _ _
      | zeros take => exact onward _ _ _
      | copy block blockStart blockEnd =>
        obtain ⟨chunk, here, hole, same, short⟩ := visit_copy found
        subst same
        apply reach_asks (allows i List.mem_cons_self chunk here hole blockEnd short)
        intro bytes
        apply asks_lift_bind
        intro src _
        exact onward _ _ _

theorem readInto_asks {inode : UInt32} (offset : Nat) (buf : Bytes)
    (allows : ∀ start stop, fs.chunkRange inode = .ok (start, stop) →
      ∀ chunk ∈ (fs.chunks.drop start).take (stop - start), Allows p fs chunk) :
    Asks p (fs.readInto inode offset buf) := by
  unfold Filesystem.readInto
  apply asks_lift_bind
  intro kind _
  apply asks_lift_bind
  intro _ _
  apply asks_lift_bind
  intro range accepted
  apply asks_lift_bind
  intro covering found
  apply asks_bind
  · apply readChunks_asks
    intro i member chunk here
    simp only [Filesystem.chunksCovering, bind_eq_ok, pure_eq_ok, Except.ok.injEq] at found
    obtain ⟨ends, -, same⟩ := found
    subst same
    obtain ⟨after, before⟩ := List.mem_range'_1.mp member
    apply allows range.1 range.2 accepted chunk
    apply List.mem_of_getElem? (i := i - range.1)
    rw [List.getElem?_take_of_lt (by omega), List.getElem?_drop, Nat.add_sub_cancel' (by omega)]
    exact here
  · intro done
    exact .done _

end Rdwarfs.Guarantees.AskedBlocks
