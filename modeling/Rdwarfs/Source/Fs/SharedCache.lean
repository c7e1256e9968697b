import Rdwarfs.Source.Fs.Read
import Mathlib.Logic.Relation

/-!
# One cache, many threads

fs/read.rs:1300-1356, `BlockCache::fetch` as its critical sections. A thread runs a program that
asks for blocks; in between it stands at one point of `fetch`. A step is one critical section,
one decode outside the lock, one notification, or one wake-up, which the condition variable
also allows for no reason at all. `answered` records what `decode_block` returned. A lock that a
panic has poisoned is taken as any other, as in the source.
-/
namespace Rdwarfs.Source.Fs

open Lib.Machine Lib.Oracle Codecs

/-- Where a thread stands in the `fetch` it is in. -/
inductive Pc where
  /-- About to take the lock and look. -/
  | locking
  /-- In `Condvar::wait`. -/
  | parked
  | decoding (retryInFull : Bool)
  | recording (bytes : Bytes)
  | publishing (bytes : Bytes)
  /-- The decode failed or panicked; `InFlight` is being dropped. -/
  | dropping (failure : Failure Error)
  /-- Past the lock, about to call `notify_all` and return. -/
  | notifying (answer : Result Bytes)
  deriving DecidableEq, Repr

structure Thread where
  /-- The program as it was started. -/
  origin : Reading (Nat × Bytes)
  /-- What is left of it. -/
  program : Reading (Nat × Bytes)
  pc : Pc

namespace Thread

/-- `fetch` returns `answer`; an error ends the program. -/
def answer (origin : Reading (Nat × Bytes)) (next : Bytes → Reading (Nat × Bytes)) :
    Result Bytes → Thread
  | .ok bytes => ⟨origin, next bytes, .locking⟩
  | .error failure => ⟨origin, .done (.error failure), .locking⟩

def woken (thread : Thread) : Thread :=
  match thread.pc with
  | .parked => { thread with pc := .locking }
  | _ => thread

end Thread

structure Shared where
  inner : Inner
  threads : Nat → Option Thread
  answered : List (BlockQuery × Result Bytes)

namespace Shared

def initial : Shared where
  inner := .empty
  threads := fun _ => none
  answered := []

/-- Thread `t` is not running, or has finished. -/
def Free (s : Shared) (t : Nat) : Prop :=
  s.threads t = none ∨ ∃ origin result pc, s.threads t = some ⟨origin, .done result, pc⟩

/-- Thread `t` moves to `thread`, leaving `inner` behind the lock. -/
def moved (s : Shared) (t : Nat) (inner : Inner) (thread : Thread) : Shared :=
  { s with inner, threads := Function.update s.threads t (some thread) }

def log (s : Shared) (query : BlockQuery) (answer : Result Bytes) : Shared :=
  { s with answered := (query, answer) :: s.answered }

/-- `notify_all` -/
def wakeAll (s : Shared) : Shared := { s with threads := fun t => (s.threads t).map Thread.woken }

variable (libs : Libraries) (fs : Filesystem) (budget : Nat)

inductive Step : Shared → Shared → Prop
  | start {s : Shared} {t : Nat} (program : Reading (Nat × Bytes)) (free : s.Free t) :
      Step s (s.moved t s.inner ⟨program, program, .locking⟩)
  | hit {s : Shared} {t : Nat} {origin next query bytes inner}
      (here : s.threads t = some ⟨origin, .ask query next, .locking⟩)
      (found : s.inner.lookup query.block query.needed = .ok (.hit bytes, inner)) :
      Step s ((s.moved t inner (.answer origin next (.ok bytes))).log query (.ok bytes))
  | wait {s : Shared} {t : Nat} {origin next query inner}
      (here : s.threads t = some ⟨origin, .ask query next, .locking⟩)
      (found : s.inner.lookup query.block query.needed = .ok (.wait, inner)) :
      Step s (s.moved t inner ⟨origin, .ask query next, .parked⟩)
  | claim {s : Shared} {t : Nat} {origin next query retryInFull inner}
      (here : s.threads t = some ⟨origin, .ask query next, .locking⟩)
      (found : s.inner.lookup query.block query.needed = .ok (.decode retryInFull, inner)) :
      Step s (s.moved t inner ⟨origin, .ask query next, .decoding retryInFull⟩)
  | wake {s : Shared} {t : Nat} {origin next query}
      (here : s.threads t = some ⟨origin, .ask query next, .parked⟩) :
      Step s (s.moved t s.inner ⟨origin, .ask query next, .locking⟩)
  | decoded {s : Shared} {t : Nat} {origin next query retryInFull bytes}
      (here : s.threads t = some ⟨origin, .ask query next, .decoding retryInFull⟩)
      (result : fs.decodeRecord libs query retryInFull = .ok bytes) :
      Step s (s.moved t s.inner ⟨origin, .ask query next, .recording bytes⟩)
  | failed {s : Shared} {t : Nat} {origin next query retryInFull failure}
      (here : s.threads t = some ⟨origin, .ask query next, .decoding retryInFull⟩)
      (result : fs.decodeRecord libs query retryInFull = .error failure) :
      Step s (s.moved t s.inner ⟨origin, .ask query next, .dropping failure⟩)
  | record {s : Shared} {t : Nat} {origin next query bytes}
      (here : s.threads t = some ⟨origin, .ask query next, .recording bytes⟩) :
      Step s (s.moved t (s.inner.recordDecoded query.block bytes.length fs.blockSize.toNat)
        ⟨origin, .ask query next, .publishing bytes⟩)
  | publish {s : Shared} {t : Nat} {origin next query bytes inner}
      (here : s.threads t = some ⟨origin, .ask query next, .publishing bytes⟩)
      (admitted : s.inner.admitBytes query.block bytes budget = .ok inner) :
      Step s (s.moved t inner ⟨origin, .ask query next, .notifying (.ok bytes)⟩)
  | drop {s : Shared} {t : Nat} {origin next query failure}
      (here : s.threads t = some ⟨origin, .ask query next, .dropping failure⟩) :
      Step s (s.moved t (s.inner.abandon query.block)
        ⟨origin, .ask query next, .notifying (.error failure)⟩)
  | notify {s : Shared} {t : Nat} {origin next query answer}
      (here : s.threads t = some ⟨origin, .ask query next, .notifying answer⟩) :
      Step s ((s.wakeAll.moved t s.inner (.answer origin next answer)).log query answer)
  | clear (s : Shared) : Step s { s with inner := s.inner.clear }

/-- Any number of steps of any threads, from a new cache. -/
def Reachable (s : Shared) : Prop := Relation.ReflTransGen (Step libs fs budget) initial s

end Shared

end Rdwarfs.Source.Fs
