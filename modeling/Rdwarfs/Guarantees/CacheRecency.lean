import Rdwarfs.Guarantees.BorrowedReads
import Rdwarfs.Guarantees.CacheOwners
import Rdwarfs.Lib.Recency
import Mathlib.Algebra.Order.BigOperators.Group.List
import Mathlib.Algebra.Order.Group.Nat

/-!
# The cache evicts what was used least recently

In every reachable state `order` is the log of uses, each block at its last use and only the
ready ones; and the resident bytes are within the budget unless one block is all there is.
A publication makes room from the front of the order. A read that finds too short a prefix
evicts that prefix, wherever it stands.
-/
namespace Rdwarfs.Guarantees.CacheRecency

open Lib.Machine Lib.Recency Source Source.Fs Source.Codecs
open CacheAccounting CacheOwners BorrowedReads

def isReady (blocks : Blocks) (block : UInt32) : Bool :=
  match blocks block with
  | some (.ready _) => true
  | _ => false

/-- Within the budget, or a single block larger than it. -/
def Within (budget : Nat) (inner : Inner) : Prop :=
  inner.resident ≤ budget ∨ inner.order.length = 1

section Sections

theorem isReady_iff {blocks : Blocks} {block : UInt32} :
    isReady blocks block = true ↔ ∃ bytes, blocks block = some (.ready bytes) := by
  unfold isReady
  split
  · rename_i bytes ready
    exact iff_of_true rfl ⟨bytes, ready⟩
  · rename_i unready
    exact iff_of_false (by simp) fun ⟨bytes, ready⟩ => unready bytes ready

variable {inner after : Inner} {budget : Nat}

/-- Dropping entries only makes the cache smaller. -/
theorem Within.shrunk (within : Within budget inner) (accounted : Accounted inner)
    (kept : Accounted after) (sub : after.order.Sublist inner.order)
    (keeps : ∀ block, held after.blocks block ≤ held inner.blocks block) :
    Within budget after := by
  have smaller : after.resident ≤ inner.resident := by
    rw [kept.resident, accounted.resident]
    apply Nat.le_trans (m := (after.order.map (held inner.blocks)).sum)
    · exact List.sum_le_sum fun block _ => keeps block
    · exact (sub.map _).sum_le_sum (by simp)
  rcases within with fits | single
  · exact Or.inl (Nat.le_trans smaller fits)
  · have short := sub.length_le
    rw [single] at short
    rcases Nat.lt_or_eq_of_le short with none_ | one
    · have empty : after.order = [] := List.length_eq_zero_iff.mp (by omega)
      have total := kept.resident
      rw [empty] at total
      exact Or.inl (by simp [total])
    · exact Or.inr one

theorem order_touch (block : UInt32) :
    (inner.touch block).order =
      if block ∈ inner.order then inner.order.erase block ++ [block] else inner.order := by
  unfold Inner.touch
  split <;> rfl

theorem resident_touch (block : UInt32) : (inner.touch block).resident = inner.resident := by
  unfold Inner.touch
  split <;> rfl

theorem length_order_touch (block : UInt32) :
    (inner.touch block).order.length = inner.order.length := by
  rw [order_touch]
  split
  · rename_i listed
    have positive := List.length_pos_of_mem listed
    rw [List.length_append, List.length_erase_of_mem listed]
    simp only [List.length_singleton]
    omega
  · rfl

theorem Within.touch (within : Within budget inner) (block : UInt32) :
    Within budget (inner.touch block) := by
  unfold Within
  rw [resident_touch, length_order_touch]
  exact within

theorem recent_touch {uses : List UInt32} (recent : Recent uses inner.order) (block : UInt32) :
    Recent (uses ++ [block]) (inner.touch block).order := by
  rw [order_touch]
  split
  · exact recent.use block
  · rename_i unlisted
    exact recent.use_unlisted unlisted

/-- Making room takes blocks from the front until the newcomer fits or nothing is left. -/
theorem makeRoom_evicts (accounted : Accounted inner) (incoming rounds : Nat)
    (enough : inner.order.length ≤ rounds) :
    ∃ after dropped, Inner.makeRoom budget incoming rounds inner = .ok after ∧
      after.order = inner.order.drop dropped ∧
      (after.resident + incoming ≤ budget ∨ after.order = []) := by
  induction rounds generalizing inner with
  | zero =>
    have empty : inner.order = [] := List.length_eq_zero_iff.mp (by omega)
    exact ⟨inner, 0, rfl, rfl, Or.inr empty⟩
  | succ rounds ih =>
    rw [Inner.makeRoom]
    split
    · rcases accounted.evictOne with ⟨empty, none_⟩ | ⟨key, rest, next, order, evicted, kept, shorter, _⟩
      · exact ⟨inner, 0, by rw [none_]; rfl, rfl, Or.inr empty⟩
      · rw [order, List.length_cons] at enough
        obtain ⟨last, dropped, made, left, fits⟩ := ih kept (by rw [shorter]; omega)
        refine ⟨last, dropped + 1, by rw [evicted]; exact made, ?_, fits⟩
        rw [left, shorter, order, List.drop_succ_cons]
    · exact ⟨inner, 0, rfl, rfl, Or.inl (by omega)⟩

theorem displace_order (accounted : Accounted inner) (block : UInt32) :
    ∃ after, inner.displace block = .ok after ∧ after.order = inner.order.erase block := by
  unfold Inner.displace
  split
  · obtain ⟨after, evicted, _, _, order⟩ := accounted.evict block
    exact ⟨after, evicted, order⟩
  · rename_i unready
    refine ⟨_, forget_unready unready, ?_⟩
    have unlisted : block ∉ inner.order := fun listed => by
      obtain ⟨bytes, ready⟩ := (accounted.ready block).mp listed
      exact unready bytes ready
    exact (List.erase_of_not_mem unlisted).symm

/-- A publication evicts from the front of the order, and puts its block at the end. -/
theorem admitBytes_evicts (accounted : Accounted inner) {block : UInt32} {bytes : Bytes}
    (admitted : inner.admitBytes block bytes budget = .ok after) :
    (∃ dropped, after.order = (inner.order.erase block).drop dropped ++ [block]) ∧
      Within budget after := by
  obtain ⟨cleared, displaced, order⟩ := displace_order accounted block
  obtain ⟨_, displaced', kept, _⟩ := accounted.displace block
  rw [displaced] at displaced'
  cases displaced'
  obtain ⟨roomy, dropped, made, left, fits⟩ :=
    @makeRoom_evicts cleared budget kept bytes.length cleared.order.length (Nat.le_refl _)
  obtain ⟨_, made', keptRoomy, _⟩ :=
    kept.makeRoom budget bytes.length cleared.order.length
  rw [made] at made'
  cases made'
  simp only [Inner.admitBytes, displaced, made, ok_bind, pure_eq_ok, Except.ok.injEq] at admitted
  subst admitted
  refine ⟨⟨dropped, by rw [left, order]⟩, ?_⟩
  rcases fits with fits | empty
  · exact Or.inl fits
  · exact Or.inr (by simp [empty])

/-- What `lookup` does to the order: a hit is a use, a short prefix is evicted. -/
theorem lookup_order (accounted : Accounted inner) {block : UInt32} {needed : Nat}
    {found : Inner.Found} (looked : inner.lookup block needed = .ok (found, after)) :
    match found with
    | .hit _ => after = inner.touch block
    | .wait => after = inner
    | .decode _ => after.order = inner.order.erase block := by
  unfold Inner.lookup at looked
  split at looked
  · split at looked
    · cases looked
      rfl
    · obtain ⟨gone, evicted, _, _, order⟩ := accounted.evict block
      rw [evicted] at looked
      cases looked
      exact order
  · cases looked
    rfl
  · rename_i absent
    cases looked
    have unlisted : block ∉ inner.order := fun listed => by
      obtain ⟨bytes, ready⟩ := (accounted.ready block).mp listed
      rw [absent] at ready
      cases ready
    exact (List.erase_of_not_mem unlisted).symm

theorem held_update_le {blocks : Blocks} {block other : UInt32} {entry : Option Entry}
    (unready : ∀ bytes, entry ≠ some (.ready bytes)) :
    held (Function.update blocks block entry) other ≤ held blocks other := by
  by_cases same : other = block
  · subst same
    unfold held
    rw [Function.update_self]
    split
    · rename_i bytes
      exact absurd rfl (unready bytes)
    · exact Nat.zero_le _
  · exact Nat.le_of_eq (held_update_ne same)

theorem order_recordDecoded (block : UInt32) (decoded whole : Nat) :
    (inner.recordDecoded block decoded whole).order = inner.order ∧
      (inner.recordDecoded block decoded whole).resident = inner.resident := by
  unfold Inner.recordDecoded
  split <;> exact ⟨rfl, rfl⟩

end Sections

section Steps

variable {budget : Nat} {s after : Fetches}

structure LeastRecentFirst (budget : Nat) (s : Fetches) : Prop where
  orderly : Orderly s
  recent : Recent s.uses s.inner.order
  within : Within budget s.inner

/-- Every step keeps the queue in order of last use and the bytes within the budget. -/
theorem LeastRecentFirst.step (first : LeastRecentFirst budget s)
    (step : Fetches.Step budget s after) : LeastRecentFirst budget after := by
  have accounted := first.orderly.accounted
  have orderly := first.orderly.step step
  cases step with
  | enter call free => exact ⟨orderly, first.recent, first.within⟩
  | @hit t call bytes inner here found =>
    have same : inner = s.inner.touch call.block := lookup_order accounted found
    subst same
    exact ⟨orderly, recent_touch first.recent call.block, first.within.touch call.block⟩
  | @wait t call inner here found =>
    have same : inner = s.inner := lookup_order accounted found
    subst same
    exact ⟨orderly, first.recent, first.within⟩
  | @claim t call retryInFull inner here found =>
    have order : inner.order = s.inner.order.erase call.block := lookup_order accounted found
    have sub : inner.order.Sublist s.inner.order := order ▸ List.erase_sublist
    obtain ⟨_, _, looked, kept, sees⟩ := accounted.lookup call.block call.needed
    rw [found] at looked
    cases looked
    refine ⟨orderly, first.recent.sublist sub, first.within.shrunk accounted kept sub ?_⟩
    intro block
    change held inner.blocks block ≤ _
    rw [sees.2]
    exact held_update_le (by simp)
  | wake here => exact ⟨orderly, first.recent, first.within⟩
  | decoded bytes here => exact ⟨orderly, first.recent, first.within⟩
  | failed here => exact ⟨orderly, first.recent, first.within⟩
  | @record t call bytes here =>
    obtain ⟨order, resident⟩ :=
      @order_recordDecoded s.inner call.block bytes.length call.whole
    refine ⟨orderly, ?_, ?_⟩
    · exact order ▸ first.recent
    · exact first.within.imp (resident.trans_le ·) (order ▸ ·)
  | @publish t call bytes inner here admitted =>
    obtain ⟨⟨dropped, order⟩, within⟩ := admitBytes_evicts accounted admitted
    refine ⟨orderly, ?_, within⟩
    apply (first.recent.use call.block).sublist
    change inner.order.Sublist _
    rw [order]
    exact (List.drop_sublist _ _).append (List.Sublist.refl _)
  | drop here => exact ⟨orderly, first.recent, first.within⟩
  | notify here => exact ⟨orderly, first.recent, first.within⟩
  | clear => exact ⟨orderly, recent_nil _, Or.inl (Nat.zero_le _)⟩
  | resident block =>
    exact ⟨orderly, recent_touch first.recent block, first.within.touch block⟩

theorem leastRecentFirst_of_reachable (reachable : Fetches.Reachable budget s) :
    LeastRecentFirst budget s := by
  induction reachable with
  | refl => exact ⟨orderly_initial, recent_nil _, Or.inl (Nat.zero_le _)⟩
  | tail _ step first => exact first.step step

/-- The accounts of the cache. `order` is the log of uses, cut down to the ready blocks;
`resident` is the sum of their lengths and no critical section underflows; making room
removes least recently used blocks and a short prefix is removed where it stands; the bytes
fit the budget unless one block is all there is; and a borrowed block is never lost. -/
theorem cache_accounts (reachable : Fetches.Reachable budget s) :
    s.inner.order = s.uses.dedup.filter (isReady s.inner.blocks) ∧
    (∀ block, block ∈ s.inner.order ↔ ∃ bytes, s.inner.blocks block = some (.ready bytes)) ∧
    s.inner.resident = (s.inner.order.map (held s.inner.blocks)).sum ∧
    (∀ block needed, ∃ found inner, s.inner.lookup block needed = .ok (found, inner)) ∧
    (∀ block bytes, ∃ inner, s.inner.admitBytes block bytes budget = .ok inner) ∧
    (∀ t call bytes inner, s.calls t = some (call, .publishing bytes) →
      s.inner.admitBytes call.block bytes budget = .ok inner →
      ∃ dropped, inner.order = s.inner.order.drop dropped ++ [call.block]) ∧
    (∀ block needed retryInFull inner,
      s.inner.lookup block needed = .ok (.decode retryInFull, inner) →
      inner.order = s.inner.order.erase block) ∧
    (s.inner.resident ≤ budget ∨ s.inner.order.length = 1) ∧
    ((∀ t, s.calls t = none) → ∀ (fs : Filesystem) (libs : Libraries) inode offset len,
      ∃ result after, fs.readBorrowed libs budget inode offset len s.inner =
          some (result, after) ∧
        (result = fail Filesystem.lostEntry → ∃ query retryInFull,
          fs.decodeRecord libs query retryInFull = fail Filesystem.lostEntry)) := by
  obtain ⟨orderly, recent, within⟩ := leastRecentFirst_of_reachable reachable
  have accounted := orderly.accounted
  refine ⟨?_, accounted.ready, accounted.resident, ?_, ?_, ?_, ?_, within, ?_⟩
  · exact recent.eq_filter _ fun block => (accounted.ready block).trans isReady_iff.symm
  · intro block needed
    obtain ⟨found, inner, looked, _⟩ := accounted.lookup block needed
    exact ⟨found, inner, looked⟩
  · intro block bytes
    obtain ⟨inner, admitted, _⟩ := accounted.admitBytes block bytes budget
    exact ⟨inner, admitted⟩
  · intro t call bytes inner here admitted
    obtain ⟨⟨dropped, order⟩, _⟩ := admitBytes_evicts accounted admitted
    have loading : s.inner.blocks call.block = some .loading :=
      (orderly.marked _).mpr ⟨t, (owns_of_calls here).mpr ⟨rfl, rfl⟩⟩
    rw [List.erase_of_not_mem (accounted.not_listed_of_loading loading)] at order
    exact ⟨dropped, order⟩
  · intro block needed retryInFull inner looked
    exact lookup_order accounted looked
  · intro alone fs libs inode offset len
    apply readBorrowed_keeps fs libs budget inode offset len accounted
    intro block loading
    obtain ⟨t, owns⟩ := (orderly.marked block).mp loading
    exact not_owns_of_free (alone t) owns

section Run

/-- One thread decodes a byte of a block, publishes it and returns. -/
theorem fetch_run {s : Fetches} (reachable : Fetches.Reachable budget s)
    (free : ∀ t, s.calls t = none) (call : Call) (bytes : Bytes) {claimed inner : Inner}
    (found : s.inner.lookup call.block call.needed = .ok (.decode false, claimed))
    (admitted : (claimed.recordDecoded call.block bytes.length call.whole).admitBytes call.block
      bytes budget = .ok inner) :
    ∃ after, Fetches.Reachable budget after ∧ after.inner = inner ∧ ∀ t, after.calls t = none := by
  have entered := reachable.tail (.enter (t := 0) call (free 0))
  have claim := entered.tail (.claim (t := 0) calls_moved_self found)
  have decoded := claim.tail (.decoded (t := 0) bytes calls_moved_self)
  have recorded := decoded.tail (.record (t := 0) calls_moved_self)
  have published := recorded.tail (.publish (t := 0) calls_moved_self admitted)
  have notified := published.tail (.notify (t := 0) (calls_used.trans calls_moved_self))
  refine ⟨_, notified, rfl, fun t => ?_⟩
  by_cases same : t = 0
  · subst same
    exact calls_returned_self
  · apply (calls_returned_ne same).trans
    simp [Fetches.wakeAll, Fetches.used, calls_moved_ne same, free t]

/-- Blocks 3 and 5 are resident, a byte of each. -/
theorem prefixes_run :
    ∃ s, Fetches.Reachable 100 s ∧ (∀ t, s.calls t = none) ∧ s.inner.order = [3, 5] ∧
      s.inner.lookup 5 2 = .ok (.decode true, { s.inner with
        resident := 1
        order := [3]
        blocks := Function.update (Function.update s.inner.blocks 5 none) 5 (some .loading) }) := by
  obtain ⟨one, reachedOne, innerOne, freeOne⟩ :=
    @fetch_run 100 .initial .refl (fun _ => rfl) ⟨3, 1, 4⟩ [7] _ _ rfl rfl
  obtain ⟨two, reachedTwo, innerTwo, freeTwo⟩ :=
    fetch_run reachedOne freeOne ⟨5, 1, 4⟩ [8] (by rw [innerOne]; rfl) rfl
  refine ⟨two, reachedTwo, freeTwo, ?_, ?_⟩
  · rw [innerTwo]
    rfl
  · rw [innerTwo]
    rfl

/-- A longer read of block 5 evicts it, although block 3 was used before it. -/
theorem short_prefix_evicted :
    ∃ s after, Fetches.Reachable 100 s ∧ Fetches.Step 100 s after ∧
      s.inner.order = [3, 5] ∧ after.inner.order = [3] := by
  obtain ⟨s, reached, free, order, looked⟩ := prefixes_run
  have entered := reached.tail (.enter (t := 0) ⟨5, 2, 4⟩ (free 0))
  exact ⟨_, _, entered, .claim (t := 0) calls_moved_self looked, order, rfl⟩

theorem cache_accounts_prefixes :
    ∃ s, Fetches.Reachable 100 s ∧ s.inner.order = [3, 5] ∧
      s.inner.order = s.uses.dedup.filter (isReady s.inner.blocks) := by
  obtain ⟨s, reached, _, order, _⟩ := prefixes_run
  exact ⟨s, reached, order, (cache_accounts reached).1⟩

end Run

end Steps

end Rdwarfs.Guarantees.CacheRecency
