import Rdwarfs.Source.Error
import Mathlib.Logic.Function.Basic

/-!
# The block cache

fs/read.rs:1220-1448, `BlockCache`: what each critical section does to the state the lock
protects. The maps and the set are functions of the block index. `resident` counts bytes held in
memory, so its additions cannot leave the word; its subtractions are checked. Blocks are shared by
reference in the source and are values here.
-/
namespace Rdwarfs.Source.Fs

open Lib.Machine

inductive Entry where
  /-- Some thread is decoding this block. -/
  | loading
  | ready (bytes : Bytes)
  deriving DecidableEq, Repr

structure Inner where
  /-- Blocks that have been decoded in full at least once. -/
  decodedWhole : UInt32 → Bool
  resident : Nat
  blocks : UInt32 → Option Entry
  /-- Resident blocks, least recently used first. -/
  order : List UInt32

namespace Inner

/-- `BlockCache::new` -/
def empty : Inner where
  decodedWhole := fun _ => false
  resident := 0
  blocks := fun _ => none
  order := []

variable (inner : Inner)

def touch (block : UInt32) : Inner :=
  if block ∈ inner.order then { inner with order := inner.order.erase block ++ [block] }
  else inner

/-- `blocks.remove(&block)`, no longer counting the bytes of a ready entry. -/
def forget (block : UInt32) : Result Inner :=
  let blocks := Function.update inner.blocks block none
  match inner.blocks block with
  | some (.ready bytes) => do
    let resident ← subWord inner.resident bytes.length
    return { inner with blocks, resident }
  | _ => .ok { inner with blocks }

/-- Drop one block and stop counting its bytes. -/
def evict (block : UInt32) : Result Inner := do
  let inner ← inner.forget block
  return { inner with order := inner.order.erase block }

/-- `none` stands for the answer `false`. -/
def evictOne : Result (Option Inner) :=
  match inner.order with
  | [] => .ok none
  | key :: order => do
    let inner ← { inner with order }.forget key
    return some inner

/-- `while self.resident + bytes.len() > budget && self.evict_one() {}`; each round takes a
block off the order, so its length bounds the rounds. -/
def makeRoom (budget incoming : Nat) : (rounds : Nat) → Inner → Result Inner
  | 0, inner => .ok inner
  | rounds + 1, inner =>
    if inner.resident + incoming > budget then do
      match ← inner.evictOne with
      | some inner => makeRoom budget incoming rounds inner
      | none => .ok inner
    else .ok inner

/-- The removal `admit` begins with; the order changes only with a ready entry. -/
def displace (block : UInt32) : Result Inner :=
  match inner.blocks block with
  | some (.ready _) => inner.evict block
  | _ => inner.forget block

/-- `admit`: make room, then keep the bytes as most recently used. -/
def admitBytes (block : UInt32) (bytes : Bytes) (budget : Nat) : Result Inner := do
  let inner ← inner.displace block
  let inner ← makeRoom budget bytes.length inner.order.length inner
  return { inner with
    resident := inner.resident + bytes.length
    order := inner.order ++ [block]
    blocks := Function.update inner.blocks block (some (.ready bytes)) }

/-- `BlockCache::clear`: decodes in flight keep their markers. -/
def clear : Inner :=
  { inner with
    blocks := fun block =>
      match inner.blocks block with
      | some .loading => some .loading
      | _ => none
    order := []
    resident := 0 }

/-- `blocks.insert(block, Entry::Loading)` -/
def startLoading (block : UInt32) : Inner :=
  { inner with blocks := Function.update inner.blocks block (some .loading) }

/-- What a thread finds when it holds the lock. -/
inductive Found where
  | hit (bytes : Bytes)
  | wait
  | decode (retryInFull : Bool)
  deriving DecidableEq, Repr

/-- One round of the loop of `fetch`, and the insertion that ends it. -/
def lookup (block : UInt32) (needed : Nat) : Result (Found × Inner) :=
  match inner.blocks block with
  | some (.ready bytes) =>
    if bytes.length ≥ needed then .ok (.hit bytes, inner.touch block)
    else do
      -- resident, but only as a prefix that stops short of this read
      let inner ← inner.evict block
      return (.decode true, inner.startLoading block)
  | some .loading => .ok (.wait, inner)
  | none => .ok (.decode (inner.decodedWhole block), inner.startLoading block)

/-- `if bytes.len() >= whole { decoded_whole.insert(block) }` -/
def recordDecoded (block : UInt32) (decoded whole : Nat) : Inner :=
  if decoded ≥ whole then
    { inner with decodedWhole := Function.update inner.decodedWhole block true }
  else inner

/-- The critical section of `InFlight::drop`. -/
def abandon (block : UInt32) : Inner :=
  { inner with blocks := Function.update inner.blocks block none }

/-- `BlockCache::resident` -/
def residentBlock (block : UInt32) : Option Bytes × Inner :=
  let inner := inner.touch block
  match inner.blocks block with
  | some (.ready bytes) => (some bytes, inner)
  | _ => (none, inner)

/-- `fetch` when no other thread touches the cache; `none` where it would wait for ever. -/
def fetch (decode : Bool → Result Bytes) (budget whole : Nat) (block : UInt32) (needed : Nat) :
    Option (Result Bytes × Inner) :=
  match inner.lookup block needed with
  | .error failure => some (.error failure, inner)
  | .ok (.hit bytes, inner) => some (.ok bytes, inner)
  | .ok (.wait, _) => none
  | .ok (.decode retryInFull, inner) =>
    match decode retryInFull with
    | .error failure => some (.error failure, inner.abandon block)
    | .ok bytes =>
      match (inner.recordDecoded block bytes.length whole).admitBytes block bytes budget with
      | .error failure => some (.error failure, inner)
      | .ok inner => some (.ok bytes, inner)

end Inner

end Rdwarfs.Source.Fs
