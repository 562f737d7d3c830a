import SimControl.Queue.Keyed
/-!
# Lowest first over a highest-first keyed heap

A keyed queue that hands out the entry of lowest priority first, kept in a keyed heap that
hands out the entry of highest priority first: every priority goes in wrapped in
`ReverseOrdered`, whose order is the wrapped priority's turned round, and comes out unwrapped.

The highest-first heap is a library this one does not define. `KeyedHeap` is the calls the
queue makes on it, and the queue is defined over any heap that offers them; what such a heap
must answer is stated beside the queue's theorems (`KeyedHeap.Lawful`).
-/

namespace SimControl

/-- A priority whose order is the wrapped priority's turned round: of two, the greater is the
one whose wrapped priority is less. Two are equal when their wrapped priorities are. -/
structure ReverseOrdered (π : Type) where
  inner : π
  deriving DecidableEq

instance {π : Type} [Ord π] : Ord (ReverseOrdered π) where
  compare a b := compare b.inner a.inner

/-- The calls a keyed queue makes on a heap `H` that holds at most one priority of type `ρ`
per key and hands out the entry of highest priority first. -/
structure KeyedHeap (κ ρ H : Type) where
  /-- A heap with no entry. -/
  empty : H
  /-- Gives a key a priority, and answers the priority it had. -/
  push : H → κ → ρ → Option ρ × H
  /-- Takes an entry of highest priority. -/
  pop : H → Option (κ × ρ) × H
  /-- An entry of highest priority. -/
  peek : H → Option (κ × ρ)
  /-- Removes a key, and answers its priority. -/
  remove : H → κ → Option ρ × H
  /-- The priority of a key. -/
  getPriority : H → κ → Option ρ
  /-- Changes the priority of a key the heap holds, and answers the old one; refused for a key
  it does not hold. -/
  setPriority : H → κ → ρ → Except Unit (ρ × H)
  /-- Drops every entry. -/
  clear : H → H
  /-- The number of entries. -/
  len : H → Nat
  /-- The heap holds nothing. -/
  isEmpty : H → Bool

/-- A keyed queue that hands out the entry of lowest priority first, kept in a highest-first
heap of reverse-ordered priorities. -/
structure ReverseQueue (H : Type) where
  items : H

namespace ReverseQueue

variable {κ π H : Type} (heap : KeyedHeap κ (ReverseOrdered π) H)

/-- A queue with no entry. -/
def new : ReverseQueue H := ⟨heap.empty⟩

/-- The entry of lowest priority. -/
def peek (q : ReverseQueue H) : Option (κ × π) :=
  (heap.peek q.items).map fun e => (e.1, e.2.inner)

/-- Takes the entry of lowest priority. -/
def pop (q : ReverseQueue H) : Option (κ × π) × ReverseQueue H :=
  let (e, h) := heap.pop q.items
  (e.map fun e => (e.1, e.2.inner), ⟨h⟩)

/-- Gives a key a priority, and answers the priority it had. -/
def push (q : ReverseQueue H) (k : κ) (p : π) : Option π × ReverseQueue H :=
  let (old, h) := heap.push q.items k ⟨p⟩
  (old.map (·.inner), ⟨h⟩)

/-- Removes a key, and answers its priority. -/
def remove (q : ReverseQueue H) (k : κ) : Option π × ReverseQueue H :=
  let (old, h) := heap.remove q.items k
  (old.map (·.inner), ⟨h⟩)

/-- The priority of a key. -/
def getPriority (q : ReverseQueue H) (k : κ) : Option π :=
  (heap.getPriority q.items k).map (·.inner)

/-- The queue holds the key. -/
def contains (q : ReverseQueue H) (k : κ) : Bool :=
  (heap.getPriority q.items k).isSome

/-- Changes the priority of a key the queue holds, and answers the old one; a key it does not
hold is refused. -/
def setPriority (q : ReverseQueue H) (k : κ) (p : π) :
    Except UnknownKeyError (π × ReverseQueue H) :=
  match heap.setPriority q.items k ⟨p⟩ with
  | .ok (old, h) => .ok (old.inner, ⟨h⟩)
  | .error _ => .error {}

/-- Drops every entry. -/
def clear (q : ReverseQueue H) : ReverseQueue H := ⟨heap.clear q.items⟩

/-- The number of entries. -/
def len (q : ReverseQueue H) : Nat := heap.len q.items

/-- The queue holds nothing. -/
def isEmpty (q : ReverseQueue H) : Bool := heap.isEmpty q.items

end ReverseQueue

end SimControl
