import Rdwarfs.Source.Fs.BlockCache
import Mathlib.Logic.Relation

/-!
# Threads inside `fetch`

fs/read.rs:1271-1273, 1300-1368, 1420-1448: `BlockCache::fetch`, `InFlight` and the condition
variable, for any number of threads that ask for any blocks. A step is one critical section, the
end of one decode, which may have produced any bytes or failed or panicked, one notification, or
one wake-up, which the condition variable also allows for no reason at all. `resident` needs the
cache exclusively in the source; here it may run at any time. A poisoned lock is taken as any
other, as in the source.
-/
namespace Rdwarfs.Source.Fs

open Lib.Machine

/-- The arguments of one call of `fetch`. -/
structure Call where
  block : UInt32
  needed : Nat
  whole : Nat
  deriving DecidableEq, Repr

/-- How far a call has come. -/
inductive Stage where
  /-- About to take the lock and look. -/
  | locking
  /-- In `Condvar::wait`, and not notified since it began to wait. -/
  | parked
  | decoding (retryInFull : Bool)
  | recording (bytes : Bytes)
  | publishing (bytes : Bytes)
  /-- The decode failed or panicked; `InFlight` is being dropped. -/
  | dropping
  /-- Past the lock, about to call `notify_all` and return. -/
  | notifying
  deriving DecidableEq, Repr

namespace Stage

/-- Between the insertion of the marker and `publish` or `InFlight::drop`. -/
def owns : Stage → Bool
  | .decoding _ | .recording _ | .publishing _ | .dropping => true
  | .locking | .parked | .notifying => false

def woken : Stage → Stage
  | .parked => .locking
  | stage => stage

end Stage

structure Fetches where
  inner : Inner
  calls : Nat → Option (Call × Stage)
  /-- Every use of a block so far, the latest last. -/
  uses : List UInt32

namespace Fetches

def initial : Fetches where
  inner := .empty
  calls := fun _ => none
  uses := []

/-- Thread `t` is in `call` at `stage` now, and `inner` is behind the lock. -/
def moved (s : Fetches) (t : Nat) (inner : Inner) (call : Call) (stage : Stage) : Fetches :=
  { s with inner, calls := Function.update s.calls t (some (call, stage)) }

/-- Thread `t` returns from its call. -/
def returned (s : Fetches) (t : Nat) (inner : Inner) : Fetches :=
  { s with inner, calls := Function.update s.calls t none }

def used (s : Fetches) (block : UInt32) : Fetches := { s with uses := s.uses ++ [block] }

/-- `notify_all` -/
def wakeAll (s : Fetches) : Fetches :=
  { s with calls := fun t => (s.calls t).map fun (call, stage) => (call, stage.woken) }

variable (budget : Nat)

inductive Step : Fetches → Fetches → Prop
  | enter {s : Fetches} {t : Nat} (call : Call) (free : s.calls t = none) :
      Step s (s.moved t s.inner call .locking)
  | hit {s : Fetches} {t : Nat} {call bytes inner} (here : s.calls t = some (call, .locking))
      (found : s.inner.lookup call.block call.needed = .ok (.hit bytes, inner)) :
      Step s ((s.returned t inner).used call.block)
  | wait {s : Fetches} {t : Nat} {call inner} (here : s.calls t = some (call, .locking))
      (found : s.inner.lookup call.block call.needed = .ok (.wait, inner)) :
      Step s (s.moved t inner call .parked)
  | claim {s : Fetches} {t : Nat} {call retryInFull inner}
      (here : s.calls t = some (call, .locking))
      (found : s.inner.lookup call.block call.needed = .ok (.decode retryInFull, inner)) :
      Step s (s.moved t inner call (.decoding retryInFull))
  | wake {s : Fetches} {t : Nat} {call} (here : s.calls t = some (call, .parked)) :
      Step s (s.moved t s.inner call .locking)
  | decoded {s : Fetches} {t : Nat} {call retryInFull} (bytes : Bytes)
      (here : s.calls t = some (call, .decoding retryInFull)) :
      Step s (s.moved t s.inner call (.recording bytes))
  | failed {s : Fetches} {t : Nat} {call retryInFull}
      (here : s.calls t = some (call, .decoding retryInFull)) :
      Step s (s.moved t s.inner call .dropping)
  | record {s : Fetches} {t : Nat} {call bytes}
      (here : s.calls t = some (call, .recording bytes)) :
      Step s (s.moved t (s.inner.recordDecoded call.block bytes.length call.whole) call
        (.publishing bytes))
  | publish {s : Fetches} {t : Nat} {call bytes inner}
      (here : s.calls t = some (call, .publishing bytes))
      (admitted : s.inner.admitBytes call.block bytes budget = .ok inner) :
      Step s ((s.moved t inner call .notifying).used call.block)
  | drop {s : Fetches} {t : Nat} {call} (here : s.calls t = some (call, .dropping)) :
      Step s (s.moved t (s.inner.abandon call.block) call .notifying)
  | notify {s : Fetches} {t : Nat} {call} (here : s.calls t = some (call, .notifying)) :
      Step s (s.wakeAll.returned t s.inner)
  | clear (s : Fetches) : Step s { s with inner := s.inner.clear }
  | resident (s : Fetches) (block : UInt32) :
      Step s ({ s with inner := s.inner.touch block }.used block)

/-- Any number of steps of any threads, from a new cache. -/
def Reachable (s : Fetches) : Prop := Relation.ReflTransGen (Step budget) initial s

end Fetches

end Rdwarfs.Source.Fs
