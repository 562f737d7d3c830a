/-!
# Keyed queues

A keyed queue holds at most one priority per key and hands out the entry of lowest priority
first; any entry can be read, changed or removed by its key. The scheduler keeps its units in
one, keyed by unit and ordered by due time.

The entries are kept in the order their keys were first pushed. Among entries of equal
priority the earliest pushed comes out first.
-/

namespace SimControl

/-- A priority queue whose entries are found by key: at most one entry per key. -/
structure KeyedQueue (κ π : Type) where
  /-- The entries, in the order their keys were first pushed. -/
  entries : List (κ × π) := []
  deriving DecidableEq

/-- Setting the priority of a key the queue does not hold. -/
structure UnknownKeyError where
  deriving DecidableEq

/-- The message for a missing key. -/
def UnknownKeyError.message (_ : UnknownKeyError) : String :=
  "key is not present in the priority queue"

namespace KeyedQueue

variable {κ π : Type} [DecidableEq κ]

instance : Inhabited (KeyedQueue κ π) := ⟨{}⟩

/-- The priority of a key, if the queue holds it. -/
def get? (q : KeyedQueue κ π) (k : κ) : Option π :=
  (q.entries.find? (·.1 == k)).map (·.2)

/-- The queue holds the key. -/
def contains (q : KeyedQueue κ π) (k : κ) : Bool := (q.get? k).isSome

/-- The number of entries. -/
def size (q : KeyedQueue κ π) : Nat := q.entries.length

/-- The queue holds nothing. -/
def isEmpty (q : KeyedQueue κ π) : Bool := q.entries.isEmpty

/-- Entries with the priority of key `k` replaced. -/
def replaceIn (k : κ) (p : π) : List (κ × π) → List (κ × π)
  | [] => []
  | e :: rest => if e.1 = k then (k, p) :: rest else e :: replaceIn k p rest

/-- Gives a key a priority, and returns the priority it had. -/
def push (q : KeyedQueue κ π) (k : κ) (p : π) : Option π × KeyedQueue κ π :=
  match q.get? k with
  | some old => (some old, { entries := replaceIn k p q.entries })
  | none => (none, { entries := q.entries ++ [(k, p)] })

/-- Removes a key, and returns its priority. -/
def erase (q : KeyedQueue κ π) (k : κ) : Option π × KeyedQueue κ π :=
  (q.get? k, { entries := q.entries.filter (·.1 != k) })

/-- Changes the priority of a key the queue holds, and returns the old priority. -/
def setPriority (q : KeyedQueue κ π) (k : κ) (p : π) :
    Except UnknownKeyError (π × KeyedQueue κ π) :=
  match q.get? k with
  | some old => .ok (old, { entries := replaceIn k p q.entries })
  | none => .error {}

/-- Drops every entry. -/
def clear (_ : KeyedQueue κ π) : KeyedQueue κ π := {}

section Order

variable [LT π] [DecidableRel (α := π) (· < ·)]

/-- The first entry of least priority among `best` and the entries. -/
def leastFrom (best : κ × π) : List (κ × π) → κ × π
  | [] => best
  | e :: rest => leastFrom (if e.2 < best.2 then e else best) rest

/-- The entry of least priority, the earliest pushed among equals. -/
def peek? (q : KeyedQueue κ π) : Option (κ × π) :=
  match q.entries with
  | [] => none
  | e :: rest => some (leastFrom e rest)

/-- Takes the entry of least priority. -/
def pop (q : KeyedQueue κ π) : Option (κ × π) × KeyedQueue κ π :=
  match q.peek? with
  | none => (none, q)
  | some e => (some e, (q.erase e.1).2)

end Order

end KeyedQueue

end SimControl
