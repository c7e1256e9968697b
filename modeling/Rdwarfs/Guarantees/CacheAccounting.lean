import Rdwarfs.Source.Fs.BlockCache
import Mathlib.Data.List.Nodup
import Mathlib.Data.List.Perm.Basic
import Mathlib.Algebra.BigOperators.Group.List.Basic

/-!
# The cache keeps its accounts

`order` lists the blocks with a ready entry, each once, and `resident` is the number of
bytes they hold. Every critical section keeps this, so none of its subtractions underflows.
What a section may do to the entries is said once, by `Keeps`: markers stay, ready entries
stay or go.
-/
namespace Rdwarfs.Guarantees.CacheAccounting

open Lib.Machine Source Source.Fs

abbrev Blocks := UInt32 → Option Entry

def held (blocks : Blocks) (block : UInt32) : Nat :=
  match blocks block with
  | some (.ready bytes) => bytes.length
  | _ => 0

structure Accounted (inner : Inner) : Prop where
  nodup : inner.order.Nodup
  ready : ∀ block, block ∈ inner.order ↔ ∃ bytes, inner.blocks block = some (.ready bytes)
  resident : inner.resident = (inner.order.map (held inner.blocks)).sum

/-- Every entry of `after` was there before; only ready ones are missing. -/
def Keeps (before after : Blocks) : Prop :=
  ∀ block, after block = before block ∨
    (after block = none ∧ ∃ bytes, before block = some (.ready bytes))

theorem Keeps.refl (blocks : Blocks) : Keeps blocks blocks := fun _ => Or.inl rfl

theorem Keeps.trans {first second third : Blocks} (one : Keeps first second)
    (two : Keeps second third) : Keeps first third := by
  intro block
  rcases two block with same | ⟨gone, bytes, was⟩
  · rcases one block with same' | ⟨gone, was⟩
    · exact Or.inl (same.trans same')
    · exact Or.inr ⟨same.trans gone, was⟩
  · rcases one block with same | ⟨absent, _⟩
    · exact Or.inr ⟨gone, bytes, same ▸ was⟩
    · rw [absent] at was
      cases was

theorem Keeps.ready {before after : Blocks} (keeps : Keeps before after) {block : UInt32}
    {bytes : Bytes} (found : after block = some (.ready bytes)) :
    before block = some (.ready bytes) := by
  rcases keeps block with same | ⟨gone, _⟩
  · exact same ▸ found
  · rw [gone] at found
    cases found

theorem Keeps.loading {before after : Blocks} (keeps : Keeps before after) {block : UInt32}
    (marked : before block = some .loading) : after block = some .loading := by
  rcases keeps block with same | ⟨_, bytes, was⟩
  · exact same.trans marked
  · rw [marked] at was
    cases was

section Sums

theorem held_update_ne {blocks : Blocks} {block other : UInt32} {entry : Option Entry}
    (ne : other ≠ block) : held (Function.update blocks block entry) other = held blocks other := by
  simp [held, Function.update_of_ne ne]

/-- Changing the entry of an unlisted block changes no total. -/
theorem sum_held_update {blocks : Blocks} {order : List UInt32} {block : UInt32}
    {entry : Option Entry} (unlisted : block ∉ order) :
    (order.map (held (Function.update blocks block entry))).sum = (order.map (held blocks)).sum := by
  congr 1
  refine List.map_congr_left fun other member => held_update_ne ?_
  rintro rfl
  exact unlisted member

theorem sum_held_erase {blocks : Blocks} {order : List UInt32} {block : UInt32}
    (listed : block ∈ order) :
    (order.map (held blocks)).sum = held blocks block + ((order.erase block).map (held blocks)).sum := by
  have perm := (List.perm_cons_erase listed).map (held blocks)
  rw [perm.sum_eq, List.map_cons, List.sum_cons]

end Sums

section Sections

theorem forget_unready {inner : Inner} {block : UInt32}
    (unready : ∀ bytes, inner.blocks block ≠ some (.ready bytes)) :
    inner.forget block = .ok { inner with blocks := Function.update inner.blocks block none } := by
  cases entry : inner.blocks block with
  | none => simp [Inner.forget, entry]
  | some kind =>
    cases kind with
    | loading => simp [Inner.forget, entry]
    | ready bytes => exact absurd entry (unready bytes)

variable {inner : Inner} (accounted : Accounted inner)

theorem accounted_empty : Accounted .empty where
  nodup := List.nodup_nil
  ready := by simp [Inner.empty]
  resident := rfl

include accounted

theorem Accounted.not_listed_of_loading {block : UInt32}
    (marked : inner.blocks block = some .loading) : block ∉ inner.order := by
  intro listed
  obtain ⟨bytes, ready⟩ := (accounted.ready block).mp listed
  rw [marked] at ready
  cases ready

theorem Accounted.touch (block : UInt32) :
    Accounted (inner.touch block) ∧ (inner.touch block).blocks = inner.blocks := by
  unfold Inner.touch
  split
  · rename_i listed
    have perm : (inner.order.erase block ++ [block]).Perm inner.order :=
      (List.perm_append_singleton block _).trans (List.perm_cons_erase listed).symm
    refine ⟨⟨perm.nodup_iff.mpr accounted.nodup, fun other => ?_, ?_⟩, rfl⟩
    · rw [perm.mem_iff]
      exact accounted.ready other
    · rw [(perm.map _).sum_eq]
      exact accounted.resident
  · exact ⟨accounted, rfl⟩

/-- Removing an entry together with its place in the order. -/
theorem Accounted.evict (block : UInt32) :
    ∃ after, inner.evict block = .ok after ∧ Accounted after ∧
      after.blocks = Function.update inner.blocks block none ∧
      after.order = inner.order.erase block := by
  have rest : ∀ other, other ∈ inner.order.erase block ↔
      ∃ bytes, Function.update inner.blocks block none other = some (.ready bytes) := by
    intro other
    rw [accounted.nodup.mem_erase_iff]
    by_cases same : other = block
    · simp [same]
    · simp [same, accounted.ready other]
  have unlisted : block ∉ inner.order.erase block := accounted.nodup.not_mem_erase
  have nodup := accounted.nodup.erase block
  by_cases listed : block ∈ inner.order
  · obtain ⟨bytes, ready⟩ := (accounted.ready block).mp listed
    have total := accounted.resident
    rw [sum_held_erase listed, show held inner.blocks block = bytes.length by simp [held, ready]]
      at total
    have evicted : inner.evict block = .ok { inner with
        resident := inner.resident - bytes.length
        blocks := Function.update inner.blocks block none, order := inner.order.erase block } := by
      simp only [Inner.evict, Inner.forget, ready]
      rw [subWord_of_le (by omega)]
      rfl
    refine ⟨_, evicted, ⟨nodup, rest, ?_⟩, rfl, rfl⟩
    simp only [sum_held_update unlisted, total]
    omega
  · have absent : ∀ bytes, inner.blocks block ≠ some (.ready bytes) := fun bytes ready =>
      listed ((accounted.ready block).mpr ⟨bytes, ready⟩)
    have evicted : inner.evict block = .ok { inner with
        blocks := Function.update inner.blocks block none, order := inner.order.erase block } := by
      simp only [Inner.evict, forget_unready absent, ok_bind, pure_eq_ok]
    refine ⟨_, evicted, ⟨nodup, rest, ?_⟩, rfl, rfl⟩
    rw [List.erase_of_not_mem listed] at unlisted ⊢
    rw [sum_held_update unlisted]
    exact accounted.resident

theorem Accounted.evictOne :
    (inner.order = [] ∧ inner.evictOne = .ok none) ∨
    ∃ key rest after, inner.order = key :: rest ∧ inner.evictOne = .ok (some after) ∧
      Accounted after ∧ after.order = rest ∧ Keeps inner.blocks after.blocks := by
  cases order : inner.order with
  | nil => exact Or.inl ⟨rfl, by simp [Inner.evictOne, order]⟩
  | cons key rest =>
    obtain ⟨after, evicted, kept, blocks, shorter⟩ := accounted.evict key
    have oneByOne : inner.evictOne = (inner.evict key >>= fun after => .ok (some after)) := by
      obtain ⟨bytes, ready⟩ := (accounted.ready key).mp (by simp [order])
      simp only [Inner.evictOne, order, Inner.evict, Inner.forget, ready]
      cases (subWord inner.resident bytes.length : Result Nat) <;> simp
    refine Or.inr ⟨key, rest, after, rfl, by rw [oneByOne, evicted]; rfl, kept, ?_, fun block => ?_⟩
    · rw [shorter, order, List.erase_cons_head]
    · rw [blocks]
      by_cases same : block = key
      · subst same
        obtain ⟨bytes, ready⟩ := (accounted.ready block).mp (by simp [order])
        exact Or.inr ⟨by simp, bytes, ready⟩
      · exact Or.inl (Function.update_of_ne same _ _)

theorem Accounted.makeRoom (budget incoming rounds : Nat) :
    ∃ after, Inner.makeRoom budget incoming rounds inner = .ok after ∧ Accounted after ∧
      Keeps inner.blocks after.blocks := by
  induction rounds generalizing inner with
  | zero => exact ⟨inner, rfl, accounted, .refl _⟩
  | succ rounds ih =>
    rw [Inner.makeRoom]
    split
    · rcases accounted.evictOne with ⟨_, none_⟩ | ⟨_, _, after, _, evicted, kept, _, keeps⟩
      · exact ⟨inner, by rw [none_]; rfl, accounted, .refl _⟩
      · obtain ⟨last, made, keptLast, keepsLast⟩ := ih kept
        exact ⟨last, by rw [evicted]; exact made, keptLast, keeps.trans keepsLast⟩
    · exact ⟨inner, rfl, accounted, .refl _⟩

/-- Only entries that are not ready may be replaced by a marker or removed without touching
the accounts. -/
theorem Accounted.update {block : UInt32} (unready : ∀ bytes, inner.blocks block ≠ some (.ready bytes))
    {entry : Option Entry} (unreadyAfter : ∀ bytes, entry ≠ some (.ready bytes)) :
    Accounted { inner with blocks := Function.update inner.blocks block entry } := by
  have unlisted : block ∉ inner.order := fun listed => by
    obtain ⟨bytes, ready⟩ := (accounted.ready block).mp listed
    exact unready bytes ready
  refine ⟨accounted.nodup, fun other => ?_, ?_⟩
  · by_cases same : other = block
    · subst same
      simp only [Function.update_self]
      exact ⟨fun listed => absurd listed unlisted,
        fun ⟨bytes, ready⟩ => absurd ready (unreadyAfter bytes)⟩
    · simp only [Function.update_of_ne same]
      exact accounted.ready other
  · simp only [sum_held_update unlisted]
    exact accounted.resident

theorem Accounted.displace (block : UInt32) :
    ∃ after, inner.displace block = .ok after ∧ Accounted after ∧
      after.blocks = Function.update inner.blocks block none := by
  unfold Inner.displace
  split
  · obtain ⟨after, evicted, kept, blocks, _⟩ := accounted.evict block
    exact ⟨after, evicted, kept, blocks⟩
  · rename_i other
    exact ⟨_, forget_unready other, accounted.update other (by simp), rfl⟩

/-- A published block is ready, and the others are kept. -/
theorem Accounted.admitBytes (block : UInt32) (bytes : Bytes) (budget : Nat) :
    ∃ after, inner.admitBytes block bytes budget = .ok after ∧ Accounted after ∧
      after.blocks block = some (.ready bytes) ∧
      ∀ other, other ≠ block → after.blocks other = inner.blocks other ∨
        (after.blocks other = none ∧ ∃ old, inner.blocks other = some (.ready old)) := by
  obtain ⟨cleared, done, keptCleared, blocksCleared⟩ := accounted.displace block
  obtain ⟨roomy, made, keptRoomy, keeps⟩ := keptCleared.makeRoom budget bytes.length cleared.order.length
  have absent : roomy.blocks block = none := by
    rcases keeps block with same | ⟨gone, _⟩
    · rw [same, blocksCleared, Function.update_self]
    · exact gone
  have unlisted : block ∉ roomy.order := fun listed => by
    obtain ⟨_, ready⟩ := (keptRoomy.ready block).mp listed
    rw [absent] at ready
    cases ready
  refine ⟨{ roomy with
    resident := roomy.resident + bytes.length
    order := roomy.order ++ [block]
    blocks := Function.update roomy.blocks block (some (.ready bytes)) }, ?_, ⟨?_, ?_, ?_⟩, ?_, ?_⟩
  · simp only [Inner.admitBytes, done, made, ok_bind]
    rfl
  · exact List.Nodup.append keptRoomy.nodup (List.nodup_singleton block)
      (by simpa using unlisted)
  · intro other
    by_cases same : other = block
    · simp [same]
    · simp [same, keptRoomy.ready other]
  · have own : held (Function.update roomy.blocks block (some (.ready bytes))) block =
        bytes.length := by simp [held]
    simp only [List.map_append, List.sum_append, List.map_cons, List.map_nil, List.sum_singleton,
      sum_held_update unlisted, own, keptRoomy.resident]
  · simp
  · intro other ne
    simp only [Function.update_of_ne ne]
    rcases keeps other with same | ⟨gone, old, was⟩
    · rw [same, blocksCleared, Function.update_of_ne ne]
      exact Or.inl rfl
    · rw [blocksCleared, Function.update_of_ne ne] at was
      exact Or.inr ⟨gone, old, was⟩

omit accounted in
theorem accounted_clear : Accounted inner.clear ∧ Keeps inner.blocks inner.clear.blocks := by
  constructor
  · refine ⟨List.nodup_nil, fun block => ?_, rfl⟩
    simp only [Inner.clear, List.not_mem_nil, false_iff]
    rintro ⟨bytes, ready⟩
    split at ready <;> cases ready
  · intro block
    simp only [Inner.clear]
    cases entry : inner.blocks block with
    | none => exact Or.inl rfl
    | some kind =>
      cases kind with
      | loading => exact Or.inl rfl
      | ready bytes => exact Or.inr ⟨rfl, bytes, rfl⟩

theorem Accounted.recordDecoded (block : UInt32) (decoded whole : Nat) :
    Accounted (inner.recordDecoded block decoded whole) ∧
      (inner.recordDecoded block decoded whole).blocks = inner.blocks := by
  unfold Inner.recordDecoded
  split
  · exact ⟨⟨accounted.nodup, accounted.ready, accounted.resident⟩, rfl⟩
  · exact ⟨accounted, rfl⟩

/-- What a thread that holds the lock finds, and what it leaves. -/
theorem Accounted.lookup (block : UInt32) (needed : Nat) :
    ∃ found after, inner.lookup block needed = .ok (found, after) ∧ Accounted after ∧
      match found with
      | .hit bytes => inner.blocks block = some (.ready bytes) ∧ needed ≤ bytes.length ∧
          after.blocks = inner.blocks
      | .wait => inner.blocks block = some .loading ∧ after = inner
      | .decode _ => inner.blocks block ≠ some .loading ∧
          after.blocks = Function.update inner.blocks block (some .loading) := by
  unfold Inner.lookup
  split
  · rename_i bytes ready
    split
    · rename_i long
      obtain ⟨kept, same⟩ := accounted.touch block
      exact ⟨_, _, rfl, kept, ready, long, same⟩
    · obtain ⟨gone, evicted, kept, blocks, _⟩ := accounted.evict block
      refine ⟨.decode true, gone.startLoading block, by rw [evicted]; rfl, ?_, ?_, ?_⟩
      · exact kept.update (by simp [blocks]) (by simp)
      · simp [ready]
      · simp [Inner.startLoading, blocks]
  · rename_i marked
    exact ⟨_, _, rfl, accounted, marked, rfl⟩
  · rename_i absent
    exact ⟨_, _, rfl, accounted.update (by simp [absent]) (by simp), by simp [absent], rfl⟩

/-- Alone with a cache without markers, `fetch` returns: an entry that was there, or what the
decoder says. No other entry is new. -/
theorem Accounted.fetch (idle : ∀ block, inner.blocks block ≠ some .loading)
    (decode : Bool → Result Bytes) (budget whole : Nat) (block : UInt32) (needed : Nat) :
    ∃ result after, inner.fetch decode budget whole block needed = some (result, after) ∧
      Accounted after ∧ (∀ other, after.blocks other ≠ some .loading) ∧
      (∀ bytes, result = .ok bytes → after.blocks block = some (.ready bytes)) ∧
      (∀ other bytes, after.blocks other = some (.ready bytes) →
        inner.blocks other = some (.ready bytes) ∨ (other = block ∧ result = .ok bytes)) ∧
      ((∃ bytes, inner.blocks block = some (.ready bytes) ∧ needed ≤ bytes.length ∧
        result = .ok bytes) ∨ ∃ retryInFull, result = decode retryInFull) := by
  obtain ⟨found, located, looked, kept, sees⟩ := accounted.lookup block needed
  simp only [Inner.fetch, looked]
  cases found with
  | hit bytes =>
    obtain ⟨ready, long, same⟩ := sees
    refine ⟨_, _, rfl, kept, same ▸ idle, ?_, ?_, Or.inl ⟨bytes, ready, long, rfl⟩⟩
    · rintro _ ⟨⟩
      exact same ▸ ready
    · intro other held ready'
      exact Or.inl (same ▸ ready')
  | wait => exact absurd sees.1 (idle block)
  | decode retryInFull =>
    have elsewhere : ∀ other, other ≠ block → located.blocks other = inner.blocks other := by
      intro other ne
      rw [sees.2, Function.update_of_ne ne]
    cases decoded : decode retryInFull with
    | error failure =>
      have marked : located.blocks block = some .loading := by simp [sees.2]
      refine ⟨.error failure, located.abandon block, by simp only [decoded],
        kept.update (by simp [marked]) (by simp), fun other => ?_, by simp, ?_,
        Or.inr ⟨retryInFull, decoded.symm⟩⟩
      · by_cases same : other = block
        · simp [Inner.abandon, same]
        · simpa [Inner.abandon, Function.update_of_ne same, elsewhere other same] using idle other
      · intro other held ready
        by_cases same : other = block
        · simp [Inner.abandon, same] at ready
        · simp only [Inner.abandon, Function.update_of_ne same, elsewhere other same] at ready
          exact Or.inl ready
    | ok bytes =>
      obtain ⟨recorded, sameBlocks⟩ := kept.recordDecoded block bytes.length whole
      obtain ⟨after, admitted, accountedAfter, own, others⟩ :=
        recorded.admitBytes block bytes budget
      rw [sameBlocks] at others
      refine ⟨.ok bytes, after, by simp only [decoded, admitted], accountedAfter,
        fun other => ?_, ?_, ?_, Or.inr ⟨retryInFull, decoded.symm⟩⟩
      · by_cases same : other = block
        · simp [same, own]
        · rcases others other same with eq | ⟨gone, _⟩
          · rw [eq, elsewhere other same]
            exact idle other
          · simp [gone]
      · rintro _ ⟨⟩
        exact own
      · intro other held ready
        by_cases same : other = block
        · rw [same, own] at ready
          cases ready
          exact Or.inr ⟨same, rfl⟩
        · rcases others other same with eq | ⟨gone, _⟩
          · rw [eq, elsewhere other same] at ready
            exact Or.inl ready
          · simp [gone] at ready

end Sections

end Rdwarfs.Guarantees.CacheAccounting
