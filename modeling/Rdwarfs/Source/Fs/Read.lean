import Rdwarfs.Lib.Oracle
import Rdwarfs.Source.Fs.BlockCache
import Rdwarfs.Source.Fs.Filesystem

/-!
# Reading a file

fs/read.rs:50-58, 491-655, 924-945, `read_into` and the decoding of the blocks it copies from. A
read asks for blocks and computes on its own in between, so it is a program whose questions are the
calls of `decode_block`; a cache answers them. The buffer is kept as the bytes written
so far and those still untouched. Running out of memory is not modelled, only sizes that no vector
can have.
-/
namespace Rdwarfs.Source.Fs

open Lib.Machine Lib.Oracle Codecs

/-- `PREFIX_GRANULARITY` -/
def prefixGranularity : Nat := 2 ^ 20

/-- `PREFIX_MAX` -/
def prefixMax : Nat := 4 * 2 ^ 20

/-- A call of `decode_block`. -/
structure BlockQuery where
  block : UInt32
  needed : Nat
  deriving DecidableEq, Repr

abbrev Reading := Prog BlockQuery Bytes Error

/-- `slice::partition_point`, for a slice whose elements that satisfy `p` come first. -/
def partitionPoint {α : Type} (p : α → Bool) (xs : List α) : Nat := (xs.takeWhile p).length

namespace Filesystem

variable (fs : Filesystem)

/-- The closure `decode_block` hands to the cache. -/
def decodeRecord (libs : Libraries) (query : BlockQuery) (retryInFull : Bool) : Result Bytes := do
  let record ← okOr fs.blockRecords[query.block.toNat]?
    (corrupt s!"block {query.block} out of range")
  let full := fs.blockSize.toNat
  let decoded ←
    if retryInFull = false ∧ query.needed ≤ min prefixMax full then
      fs.image.decompressSectionPrefix libs record (min (max query.needed prefixGranularity) full)
    else .ok none
  match decoded with
  | some bytes => .ok bytes
  | none => fs.image.decompressSection libs record full

/-- `decode_block` through a cache that no other thread uses. -/
def decodeBlock (libs : Libraries) (budget : Nat) (query : BlockQuery) (cache : Inner) :
    Option (Result Bytes × Inner) :=
  cache.fetch (fs.decodeRecord libs query) budget fs.blockSize.toNat query.block query.needed

/-- The indices of the chunks of `start..stop` that can contain `offset` or anything after. -/
def chunksCovering (start stop offset : Nat) : Result (List Nat) := do
  let ends ← slice fs.chunkEnd start stop
  let first := partitionPoint (fun stop => decide (stop ≤ offset)) ends
  return List.range' (start + first) (stop - (start + first))

/-- What the read loop does at one chunk. -/
inductive Visit where
  | stop
  | skip
  | zeros (take : Nat)
  | copy (block : UInt32) (blockStart blockEnd : Nat)
  deriving DecidableEq, Repr

/-- The body of the read loop up to the copy; `room` is what the buffer still takes. -/
def visit (offset wantEnd room i : Nat) : Result Visit := do
  let chunk ← index fs.chunks i
  let chunkEnd ← index fs.chunkEnd i
  let len ← fs.chunkLogicalLen chunk
  let cursor ← subWord chunkEnd len
  if cursor ≥ wantEnd then return .stop
  else if chunkEnd ≤ offset then return .skip
  else do
    let localStart := offset - cursor
    let wanted ← subWord wantEnd cursor
    let own ← subWord chunkEnd cursor
    let span ← subWord (min wanted own) localStart
    let take := min span room
    if fs.isHoleChunk chunk then return .zeros take
    else do
      let blockStart ← addWord chunk.offset.toNat localStart
      let blockEnd ← addWord blockStart take
      return .copy chunk.block blockStart blockEnd

/-- The block held from an earlier chunk if it reaches far enough, else a decoded one. -/
def reach (held : Option (UInt32 × Bytes)) (query : BlockQuery) : Reading Bytes :=
  match held with
  | some (block, bytes) =>
    if block = query.block ∧ bytes.length ≥ query.needed then pure bytes
    else Prog.question query
  | none => Prog.question query

/-- The held block serves when it is the one asked for and long enough. -/
theorem reach_cases {α : Type} (held : Option (UInt32 × Bytes)) (query : BlockQuery)
    (next : Bytes → Reading α) :
    reach held query >>= next = Prog.question query >>= next ∨
      ∃ bytes, held = some (query.block, bytes) ∧ query.needed ≤ bytes.length ∧
        reach held query >>= next = next bytes := by
  unfold reach
  cases held with
  | none => exact Or.inl rfl
  | some kept =>
    obtain ⟨block, bytes⟩ := kept
    simp only
    split
    · rename_i far
      obtain ⟨rfl, long⟩ := far
      exact Or.inr ⟨bytes, rfl, long, rfl⟩
    · exact Or.inl rfl

/-- `block[block_start..block_end]`, once the block is known to reach that far. -/
def copyWindow (block : Bytes) (blockStart blockEnd : Nat) : Result Bytes := do
  refuseIf (blockEnd > block.length)
    (corrupt s!"chunk {blockStart}..{blockEnd} exceeds block of {block.length} bytes")
  slice block blockStart blockEnd

/-- The read loop: `written` is done, `remaining` is the rest of the buffer. -/
def readChunks (offset wantEnd : Nat) :
    List Nat → Bytes → Bytes → Option (UInt32 × Bytes) → Reading (Bytes × Bytes)
  | [], written, remaining, _ => pure (written, remaining)
  | i :: rest, written, remaining, held =>
    if remaining = [] then pure (written, remaining)
    else Prog.lift (fs.visit offset wantEnd remaining.length i) >>= fun visited =>
      match visited with
      | .stop => pure (written, remaining)
      | .skip => readChunks offset wantEnd rest written remaining held
      | .zeros take =>
        readChunks offset wantEnd rest (written ++ List.replicate take 0) (remaining.drop take) held
      | .copy block blockStart blockEnd =>
        reach held ⟨block, blockEnd⟩ >>= fun bytes =>
          Prog.lift (copyWindow bytes blockStart blockEnd) >>= fun src =>
            readChunks offset wantEnd rest (written ++ src) (remaining.drop src.length)
              (some (block, bytes))

/-- Read from `inode` at `offset` into `buf`; the count and the buffer afterwards. -/
def readInto (inode : UInt32) (offset : Nat) (buf : Bytes) : Reading (Nat × Bytes) := do
  let kind ← Prog.lift (fs.kind inode)
  Prog.lift (refuseIf (kind ≠ .regular) (corrupt s!"inode {inode} is not a regular file"))
  let (start, stop) ← Prog.lift (fs.chunkRange inode)
  let wantEnd := saturatingAddWord offset buf.length
  let covering ← Prog.lift (fs.chunksCovering start stop offset)
  let (written, remaining) ← fs.readChunks offset wantEnd covering [] buf none
  return (written.length, written ++ remaining)

/-- `read_at`: a fresh buffer, cut to what was read into it. -/
def readAt (inode : UInt32) (offset size : Nat) : Reading Bytes := do
  let total ← Prog.lift (fs.fileSize inode)
  let available := min (total - offset) size
  Prog.lift (allocate available)
  let (written, out) ← fs.readInto inode offset (List.replicate available 0)
  return out.take written

/-- `read_file`, with a cache of its own. -/
def readFile (libs : Libraries) (inode : UInt32) : Option (Result Bytes) :=
  match fs.fileSize inode with
  | .error failure => some (.error failure)
  | .ok size =>
    ((fs.readAt inode 0 size).run (fs.decodeBlock libs (2 * fs.blockSize.toNat)) .empty).map
      Prod.fst

/-- What `read_borrowed` knows before it decodes anything. -/
inductive Borrow where
  /-- The caller has to fall back to `read_into`. -/
  | unavailable
  | empty
  | window (block : UInt32) (blockStart blockEnd : Nat)
  deriving DecidableEq, Repr

/-- The window of the first chunk that covers `offset`, when it covers the whole range. -/
def borrowChunk (offset len i : Nat) : Result Borrow := do
  let chunk ← index fs.chunks i
  if fs.isHoleChunk chunk then return .unavailable
  else do
    let chunkEnd ← index fs.chunkEnd i
    if saturatingAddWord offset len > chunkEnd then return .unavailable
    else do
      let own ← fs.chunkLogicalLen chunk
      let cursor ← subWord chunkEnd own
      let localStart ← subWord offset cursor
      let blockStart ← addWord chunk.offset.toNat localStart
      let blockEnd ← addWord blockStart len
      return .window chunk.block blockStart blockEnd

def borrowWindow (inode : UInt32) (offset len : Nat) : Result Borrow := do
  let kind ← fs.kind inode
  refuseIf (kind ≠ .regular) (corrupt s!"inode {inode} is not a regular file")
  if len = 0 then return .empty
  else do
    let (start, stop) ← fs.chunkRange inode
    let covering ← fs.chunksCovering start stop offset
    match covering with
    | [] => return .unavailable
    | i :: _ => fs.borrowChunk offset len i

/-- Published or found, the block must still be there. -/
def lostEntry : Error := corrupt "block cache lost entry"

/-- `read_borrowed`: the caller holds the cache exclusively. -/
def readBorrowed (libs : Libraries) (budget : Nat) (inode : UInt32) (offset len : Nat)
    (cache : Inner) : Option (Result (Option Bytes) × Inner) :=
  match fs.borrowWindow inode offset len with
  | .error failure => some (.error failure, cache)
  | .ok .unavailable => some (.ok none, cache)
  | .ok .empty => some (.ok (some []), cache)
  | .ok (.window block blockStart blockEnd) =>
    match fs.decodeBlock libs budget ⟨block, blockEnd⟩ cache with
    | none => none
    | some (.error failure, cache) => some (.error failure, cache)
    | some (.ok decoded, cache) =>
      if blockEnd > decoded.length then
        some (fail (corrupt
          s!"chunk {blockStart}..{blockEnd} exceeds block of {decoded.length} bytes"), cache)
      else
        let (found, cache) := cache.residentBlock block
        some (okOr found lostEntry >>= fun bytes =>
          slice bytes blockStart blockEnd >>= fun window => .ok (some window), cache)

end Filesystem

end Rdwarfs.Source.Fs
