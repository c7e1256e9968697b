import Mathlib.Tactic.Common

/-!
# Byte streams read in pieces

A reader answers each call with some bytes, never more than asked for, until it has none
left or fails. It is a tree, since how much it hands out may depend on the room offered, and so
may whether it fails: `Delivers` says of a whole stream which bytes come out whatever the rooms
are, `Breaks` of a broken one only that it never ends.
-/
namespace Rdwarfs.Lib.Streams

structure IoError where
  interrupted : Bool
  message : String
  deriving DecidableEq, Repr

/-- What successive `read` calls meet, each by its room. An empty piece means the end, as `ended`
does. -/
inductive Reader where
  | ended
  | call (answer : Nat → Except IoError (List UInt8)) (rest : Nat → Reader)

/-- A reader that can do nothing but fail. -/
def Reader.raises (error : IoError) : Reader := .call (fun _ => .error error) fun _ => .ended

/-- The contract of `read`: at least one byte and at most the room, up to the end. A caller that
is not `retrying` takes an interruption for a failure. -/
def Delivers (retrying : Bool) : Reader → List UInt8 → Prop
  | .ended, left => left = []
  | .call answer rest, left =>
    ∀ room, 0 < room →
      match answer room with
      | .ok piece => piece ≠ [] ∧ piece.length ≤ room ∧
          ∃ later, left = piece ++ later ∧ Delivers retrying (rest room) later
      | .error error => (retrying && error.interrupted) = true ∧ Delivers retrying (rest room) left

/-- Whatever the rooms are, the reader fails sooner or later. -/
def Breaks (retrying : Bool) : Reader → Prop
  | .ended => False
  | .call answer rest =>
    ∀ room, 0 < room →
      match answer room with
      | .ok piece => piece ≠ [] ∧ piece.length ≤ room ∧ Breaks retrying (rest room)
      | .error error => (retrying && error.interrupted) = true → Breaks retrying (rest room)

/-- The reader hands out the whole stream, or breaks where there is none. -/
def Makes (retrying : Bool) (reader : Reader) : Option (List UInt8) → Prop
  | some stream => Delivers retrying reader stream
  | none => Breaks retrying reader

/-- Asked for no more than `limit` bytes at a time, nor than are still wanted, the reader hands out
`wanted` bytes before it ends or fails. -/
def Fills (limit : Nat) : Reader → Nat → Prop
  | .ended, wanted => wanted = 0
  | .call answer rest, wanted =>
    0 < wanted →
      match answer (min wanted limit) with
      | .ok piece => Fills limit (rest (min wanted limit)) (wanted - piece.length)
      | .error _ => False

theorem breaks_raises (retrying : Bool) {error : IoError} (final : error.interrupted = false) :
    Breaks retrying (.raises error) := by
  intro room _
  simp [final]

section Sinks

variable {σ : Type}

/-- A sink that takes pieces as it takes their concatenation: `takes` says what may be written
in all, and what it leaves. -/
structure Absorbs (write : σ → List UInt8 → σ × Option IoError)
    (takes : σ → List UInt8 → σ → Prop) : Prop where
  nothing : ∀ sink after, takes sink [] after ↔ after = sink
  split : ∀ sink piece later after, takes sink (piece ++ later) after ↔
    ∃ mid, write sink piece = (mid, none) ∧ takes mid later after

/-- Read into a buffer of `room` bytes and write it out, again and again; `io::copy`. A write
leaves the sink as it is then, and says whether it failed. -/
def copy (write : σ → List UInt8 → σ × Option IoError) (room : Nat) :
    Reader → σ → Except IoError σ
  | .ended, sink => .ok sink
  | .call answer rest, sink =>
    match answer room with
    | .error error =>
      if error.interrupted = true then copy write room (rest room) sink else .error error
    | .ok piece =>
      if piece = [] then .ok sink
      else
        match write sink piece with
        | (sink, none) => copy write room (rest room) sink
        | (_, some error) => .error error

/-- `copy` returns a whole stream exactly where the sink takes all of it. -/
theorem copy_eq_ok {write : σ → List UInt8 → σ × Option IoError}
    {takes : σ → List UInt8 → σ → Prop} (absorbs : Absorbs write takes) {room : Nat}
    (spacious : 0 < room) {reader : Reader} {left : List UInt8}
    (delivers : Delivers true reader left) (sink after : σ) :
    copy write room reader sink = .ok after ↔ takes sink left after := by
  induction reader generalizing left sink with
  | ended =>
    rw [Delivers] at delivers
    simp [delivers, copy, absorbs.nothing, eq_comm]
  | call answer rest ih =>
    have read := delivers room spacious
    rw [copy]
    cases answered : answer room with
    | error error =>
      simp only [answered, Bool.true_and] at read
      obtain ⟨again, onward⟩ := read
      simpa only [if_pos again] using ih room onward sink
    | ok piece =>
      simp only [answered] at read
      obtain ⟨some_, -, later, rfl, onward⟩ := read
      rw [absorbs.split]
      simp only [if_neg some_]
      cases wrote : write sink piece with
      | mk mid failed =>
        cases failed with
        | some error => simp
        | none => simpa using ih room onward mid

/-- `copy` never returns from a stream that breaks. -/
theorem copy_of_breaks (write : σ → List UInt8 → σ × Option IoError) {room : Nat}
    (spacious : 0 < room) {reader : Reader} (breaks : Breaks true reader) (sink after : σ) :
    copy write room reader sink ≠ .ok after := by
  induction reader generalizing sink with
  | ended => exact breaks.elim
  | call answer rest ih =>
    have read := breaks room spacious
    rw [copy]
    cases answered : answer room with
    | error error =>
      simp only [answered, Bool.true_and] at read
      by_cases again : error.interrupted = true
      · simpa only [if_pos again] using ih room (read again) sink
      · simp [again]
    | ok piece =>
      simp only [answered] at read
      obtain ⟨some_, -, onward⟩ := read
      simp only [if_neg some_]
      cases wrote : write sink piece with
      | mk mid failed =>
        cases failed with
        | some error => simp
        | none => exact ih room onward mid

/-- Write pieces one after the other, up to the first that the sink refuses. -/
def feed (write : σ → List UInt8 → σ × Option IoError) :
    List (List UInt8) → σ → σ × Option IoError
  | [], sink => (sink, none)
  | piece :: rest, sink =>
    match write sink piece with
    | (sink, none) => feed write rest sink
    | (sink, some error) => (sink, some error)

theorem feed_eq_done {write : σ → List UInt8 → σ × Option IoError}
    {takes : σ → List UInt8 → σ → Prop} (absorbs : Absorbs write takes)
    (pieces : List (List UInt8)) (sink after : σ) :
    feed write pieces sink = (after, none) ↔ takes sink pieces.flatten after := by
  induction pieces generalizing sink with
  | nil => simp [feed, absorbs.nothing, eq_comm]
  | cons piece rest ih =>
    rw [feed, List.flatten_cons, absorbs.split]
    cases wrote : write sink piece with
    | mk mid failed =>
      cases failed with
      | some error => simp
      | none => simpa using ih mid

section Wider

/-- A write into one sink goes through to the other as well, and the sinks stay related. -/
def Follows {τ : Type} (write : σ → List UInt8 → σ × Option IoError)
    (write' : τ → List UInt8 → τ × Option IoError) (related : σ → τ → Prop) : Prop :=
  ∀ sink other piece after, related sink other → write sink piece = (after, none) →
    ∃ after', write' other piece = (after', none) ∧ related after after'

variable {τ : Type} {write : σ → List UInt8 → σ × Option IoError}
  {write' : τ → List UInt8 → τ × Option IoError} {related : σ → τ → Prop}
  (follows : Follows write write' related)

include follows

theorem copy_follows {room : Nat} {reader : Reader} {sink after : σ} {other : τ}
    (both : related sink other) (copied : copy write room reader sink = .ok after) :
    ∃ after', copy write' room reader other = .ok after' ∧ related after after' := by
  induction reader generalizing sink other with
  | ended =>
    cases copied
    exact ⟨other, rfl, both⟩
  | call answer rest ih =>
    rw [copy] at copied ⊢
    cases answered : answer room with
    | error error =>
      simp only [answered] at copied ⊢
      by_cases again : error.interrupted = true
      · rw [if_pos again] at copied ⊢
        exact ih room both copied
      · rw [if_neg again] at copied
        cases copied
    | ok piece =>
      simp only [answered] at copied ⊢
      by_cases empty : piece = []
      · rw [if_pos empty] at copied ⊢
        cases copied
        exact ⟨other, rfl, both⟩
      · rw [if_neg empty] at copied ⊢
        cases wrote : write sink piece with
        | mk mid failed =>
          rw [wrote] at copied
          cases failed with
          | some error => cases copied
          | none =>
            obtain ⟨mid', wrote', both'⟩ := follows sink other piece mid both wrote
            rw [wrote']
            exact ih room both' copied

theorem feed_follows {pieces : List (List UInt8)} {sink after : σ} {other : τ}
    (both : related sink other) (fed : feed write pieces sink = (after, none)) :
    ∃ after', feed write' pieces other = (after', none) ∧ related after after' := by
  induction pieces generalizing sink other with
  | nil =>
    cases fed
    exact ⟨other, rfl, both⟩
  | cons piece rest ih =>
    rw [feed] at fed ⊢
    cases wrote : write sink piece with
    | mk mid failed =>
      rw [wrote] at fed
      cases failed with
      | some error => cases fed
      | none =>
        obtain ⟨mid', wrote', both'⟩ := follows sink other piece mid both wrote
        rw [wrote']
        exact ih both' fed

end Wider

end Sinks

end Rdwarfs.Lib.Streams
