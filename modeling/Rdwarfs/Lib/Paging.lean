import Rdwarfs.Lib.Machine
import Mathlib.Data.List.Infix

/-!
# Lists handed out in pages

A server numbers its items from 1 and answers a request with those after the cookie it is given,
as many as there is room for. A client that always asks from the last cookie it accepted sees the
list from the front, and the whole of it once a page is empty.
-/
namespace Rdwarfs.Lib.Paging

open Machine

variable {ε α : Type}

/-- Each item with the cookie to go on from behind it. -/
def numbered (items : List α) : List (α × Nat) := items.zipIdx 1

def page (items : List α) (cookie room : Nat) : List (α × Nat) :=
  ((numbered items).drop cookie).take room

structure Request where
  cookie : Nat
  room : Nat
  deriving DecidableEq, Repr

/-- What has been accepted after the requests: one at 0 starts the list anew, one at the last
cookie goes on. -/
inductive Accepted (answer : Request → Res ε (List (α × Nat))) :
    List Request → List (α × Nat) → Prop
  | nothing : Accepted answer [] []
  | start {requests : List Request} {accepted added : List (α × Nat)} {room : Nat}
      (earlier : Accepted answer requests accepted) (some_ : 0 < room)
      (answered : answer ⟨0, room⟩ = .ok added) :
      Accepted answer (requests ++ [⟨0, room⟩]) added
  | resume {requests : List Request} {accepted added : List (α × Nat)} {room cookie : Nat}
      {last : α} (earlier : Accepted answer requests accepted) (some_ : 0 < room)
      (behind : accepted.getLast? = some (last, cookie))
      (answered : answer ⟨cookie, room⟩ = .ok added) :
      Accepted answer (requests ++ [⟨cookie, room⟩]) (accepted ++ added)

theorem numbered_fst (items : List α) : (numbered items).map Prod.fst = items :=
  List.zipIdx_map_fst 1 items

theorem numbered_length (items : List α) : (numbered items).length = items.length :=
  List.length_zipIdx

theorem numbered_increasing (items : List α) :
    (numbered items).Pairwise fun one other => one.2 < other.2 := by
  have cookies := List.zipIdx_map_snd 1 items
  rw [numbered, ← List.pairwise_map (f := Prod.snd) (R := (· < ·)), cookies]
  exact List.pairwise_lt_range'

theorem filter_zipIdx (items : List α) (cookie first : Nat) :
    (items.zipIdx first).filter (fun item => cookie < item.2) =
      (items.zipIdx first).drop (cookie + 1 - first) := by
  induction items generalizing first with
  | nil => simp
  | cons item rest ih =>
    rw [List.zipIdx_cons]
    by_cases passed : cookie < first
    · rw [List.filter_cons_of_pos (by simpa using passed), ih]
      rw [show cookie + 1 - (first + 1) = 0 by omega, show cookie + 1 - first = 0 by omega]
      rfl
    · rw [List.filter_cons_of_neg (by simpa using passed), ih]
      obtain ⟨left, more⟩ : ∃ left, cookie + 1 - first = left + 1 := ⟨cookie - first, by omega⟩
      rw [more, List.drop_succ_cons, show cookie + 1 - (first + 1) = left by omega]

/-- A page is what lies behind the cookie. -/
theorem page_eq_filter (items : List α) (cookie room : Nat) :
    page items cookie room =
      ((numbered items).filter fun item => cookie < item.2).take room := by
  rw [page, numbered, filter_zipIdx, Nat.add_sub_cancel]

/-- The last cookie of a front part counts it. -/
theorem cookie_eq_length {items : List α} {accepted : List (α × Nat)} {last : α} {cookie : Nat}
    (front : accepted <+: numbered items) (behind : accepted.getLast? = some (last, cookie)) :
    cookie = accepted.length := by
  obtain ⟨rest, whole⟩ := front
  rw [List.getLast?_eq_getElem?] at behind
  have found : (numbered items)[accepted.length - 1]? = some (last, cookie) := by
    rw [← whole, List.getElem?_append_left, behind]
    exact (List.getElem?_eq_some_iff.mp behind).1
  obtain ⟨inside, -⟩ := List.getElem?_eq_some_iff.mp behind
  rw [numbered, List.getElem?_zipIdx] at found
  simp only [Option.map_eq_some_iff, Prod.mk.injEq] at found
  obtain ⟨-, -, -, counted⟩ := found
  omega

theorem append_page {items : List α} {accepted : List (α × Nat)}
    (front : accepted <+: numbered items) (room : Nat) :
    accepted ++ page items accepted.length room = (numbered items).take (accepted.length + room) := by
  rw [List.take_add, page, ← List.prefix_iff_eq_take.mp front]

section Runs

variable {items : List α} {answer : Request → Res ε (List (α × Nat))}
  (answers : ∀ request, answer request = .ok (page items request.cookie request.room))

include answers

/-- What has been accepted is the front of the list. -/
theorem Accepted.front {requests : List Request} {accepted : List (α × Nat)}
    (run : Accepted answer requests accepted) : accepted <+: numbered items := by
  induction run with
  | nothing => exact List.nil_prefix
  | start earlier some_ answered ih =>
    rw [answers, Except.ok.injEq] at answered
    subst answered
    exact List.take_prefix _ _
  | resume earlier some_ behind answered ih =>
    rw [answers, Except.ok.injEq, cookie_eq_length ih behind] at answered
    subst answered
    rw [append_page ih]
    exact List.take_prefix _ _

/-- Once a page is empty, the whole list has been accepted. -/
theorem Accepted.whole {requests : List Request} {accepted : List (α × Nat)}
    (run : Accepted answer requests accepted) {room cookie : Nat} {last : α} (some_ : 0 < room)
    (behind : accepted.getLast? = some (last, cookie)) (empty : answer ⟨cookie, room⟩ = .ok []) :
    accepted = numbered items := by
  have front := run.front answers
  rw [answers, Except.ok.injEq, cookie_eq_length front behind] at empty
  have more := append_page front room
  simp only at empty
  rw [empty, List.append_nil] at more
  have width := congrArg List.length more
  rw [List.length_take] at width
  rw [more, List.take_of_length_le (by omega)]

end Runs

end Rdwarfs.Lib.Paging
