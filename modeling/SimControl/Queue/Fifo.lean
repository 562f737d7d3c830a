/-!
# First-in first-out queues

A `Fifo` holds values in the order they arrived: new values go on at the back and values come
off at the front, each in constant time on average. The front is a list and the back a list
kept newest first, turned over when the front runs out; `toList` is the order in which the
values will come off.

* `toList_pushAll`: values put on come off after those already there.
* `pop?_toList`: what comes off is the head of `toList`, and the rest is its tail.
-/

namespace SimControl

/-- A first-in first-out queue. -/
structure Fifo (α : Type) where
  front : List α := []
  /-- The values at the back, newest first. -/
  back : List α := []
  deriving DecidableEq

namespace Fifo

variable {α : Type}

/-- The values in the order they will come off. -/
def toList (q : Fifo α) : List α := q.front ++ q.back.reverse

/-- The queue holds nothing. -/
def isEmpty (q : Fifo α) : Bool := q.front.isEmpty && q.back.isEmpty

/-- Puts values on at the back, in order. -/
def pushAll (q : Fifo α) (xs : List α) : Fifo α := { q with back := xs.reverse ++ q.back }

/-- Takes the value at the front, if there is one. -/
def pop? (q : Fifo α) : Option (α × Fifo α) :=
  match q.front with
  | a :: rest => some (a, { q with front := rest })
  | [] =>
    match q.back.reverse with
    | [] => none
    | a :: rest => some (a, ⟨rest, []⟩)

theorem toList_pushAll (q : Fifo α) (xs : List α) : (q.pushAll xs).toList = q.toList ++ xs := by
  simp [toList, pushAll, List.append_assoc]

theorem isEmpty_eq (q : Fifo α) : q.isEmpty = q.toList.isEmpty := by
  cases q with
  | mk front back => cases front <;> cases back <;> simp [isEmpty, toList]

theorem isEmpty_iff (q : Fifo α) : q.isEmpty = true ↔ q.toList = [] := by
  rw [isEmpty_eq, List.isEmpty_iff]

theorem pop?_toList (q : Fifo α) :
    (q.pop?.map fun p => p.1 :: p.2.toList) = (if q.toList.isEmpty then none else some q.toList) := by
  rcases q with ⟨_ | ⟨a, rest⟩, back⟩
  · simp only [pop?, toList, List.nil_append]
    split <;> simp_all
  · simp [pop?, toList]

end Fifo

end SimControl
