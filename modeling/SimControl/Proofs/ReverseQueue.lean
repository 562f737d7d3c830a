import Mathlib
import SimControl.Proofs.KeyedQueueMap
import SimControl.Queue.Reverse
/-!
# A lowest-first queue over any correct heap is a finite map

`ReverseQueue` keeps its entries in a highest-first keyed heap that this library does not
define, each priority wrapped in `ReverseOrdered`. What a correct heap answers is
`KeyedHeap.Lawful`: it stands for a finite map from keys to priorities, a push answers the old
priority and sets the new one, a peek or a pop answers an entry of highest priority, and so on.

* `isLeast_of_isHighest`: the reversed order turns the heap's highest entry into the least of
  the unwrapped priorities, and `isHighest_of_isLeast` turns a least entry back.
* `answers_serve`: over a correct heap, each call on the queue answers as the finite map of
  the heap's priorities unwrapped would, and leaves the map it should.
* `reverse_queue_as_finite_map`: so does every sequence of calls, from any queue.
* `AnswersAll.unique`: when no two keys hold the same priority, a finite map has one answer
  to each call; so any correct heap and the list queue the scheduler keeps its units in
  answer a sequence of calls that keeps priorities apart alike (`serveAll_eq_of_keepsApart`).
  The list queue read backwards is itself a correct heap (`lawful_reversedHeap`).
-/

namespace SimControl

/-! ## What a correct heap answers -/

namespace KeyedHeap

variable {κ ρ H : Type} [DecidableEq κ] [Ord ρ]

/-- An entry of a map whose priority no other priority exceeds, or nothing when the map is
empty. -/
def IsHighest (m : κ → Option ρ) : Option (κ × ρ) → Prop
  | none => ∀ k, m k = none
  | some (k, p) => m k = some p ∧ ∀ k' p', m k' = some p' → compare p' p ≠ .gt

/-- A correct keyed heap, read through `contents`, the finite map from keys to priorities that
each of its states stands for: it starts empty; a push answers the key's old priority and sets
the new one; a peek answers an entry of highest priority, or nothing when there is none, and a
pop takes it out; a removal answers and deletes the key's priority; a lookup reads the map; a
change of priority answers the old one and sets the new one for a key present and is refused
for a key absent; a clear empties the map; and the length and the emptiness test count the
keys. -/
structure Lawful (heap : KeyedHeap κ ρ H) (contents : H → κ → Option ρ) : Prop where
  empty : ∀ k, contents heap.empty k = none
  push : ∀ h k p, (heap.push h k p).1 = contents h k ∧
    contents (heap.push h k p).2 = Function.update (contents h) k (some p)
  peek : ∀ h, IsHighest (contents h) (heap.peek h)
  pop : ∀ h, IsHighest (contents h) (heap.pop h).1 ∧
    contents (heap.pop h).2 =
      (heap.pop h).1.elim (contents h) fun e => Function.update (contents h) e.1 none
  remove : ∀ h k, (heap.remove h k).1 = contents h k ∧
    contents (heap.remove h k).2 = Function.update (contents h) k none
  getPriority : ∀ h k, heap.getPriority h k = contents h k
  setPriority_some : ∀ h k p old, contents h k = some old →
    ∃ h', heap.setPriority h k p = .ok (old, h') ∧
      contents h' = Function.update (contents h) k (some p)
  setPriority_none : ∀ h k p, contents h k = none → ∃ e, heap.setPriority h k p = .error e
  clear : ∀ h k, contents (heap.clear h) k = none
  len : ∀ h, heap.len h = {k | (contents h k).isSome}.ncard
  isEmpty : ∀ h, heap.isEmpty h = true ↔ ∀ k, contents h k = none

end KeyedHeap

/-! ## Calls one after another -/

namespace KeyedQueue

variable {κ π : Type}

/-- No two keys of a map hold the same priority. -/
def Apart (m : κ → Option π) : Prop := ∀ k k' p, m k = some p → m k' = some p → k = k'

variable [DecidableEq κ]

/-- The replies a finite map gives to calls made one after another, each call answered by the
map the calls before it left. -/
inductive AnswersAll [LE π] : (κ → Option π) → List (Call κ π) → List (Reply κ π) → Prop
  | nil (m : κ → Option π) : AnswersAll m [] []
  | cons {m m' : κ → Option π} {c : Call κ π} {r : Reply κ π} {cs : List (Call κ π)}
      {rs : List (Reply κ π)} :
      Answers m c r m' → AnswersAll m' cs rs → AnswersAll m (c :: cs) (r :: rs)

/-- Calls that keep priorities apart: before each call, whatever the calls before it answered,
no two keys hold the same priority. -/
inductive KeepsApart [LE π] : (κ → Option π) → List (Call κ π) → Prop
  | nil (m : κ → Option π) : KeepsApart m []
  | cons {m : κ → Option π} {c : Call κ π} {cs : List (Call κ π)} :
      Apart m → (∀ r m', Answers m c r m' → KeepsApart m' cs) → KeepsApart m (c :: cs)

section Unique

variable [LinearOrder π] {m : κ → Option π}

omit [DecidableEq κ] in
/-- With priorities apart, a map has one entry of least priority. -/
theorem IsLeast.unique (hm : Apart m) {e e' : Option (κ × π)} (h : IsLeast m e)
    (h' : IsLeast m e') : e = e' := by
  match e, e', h, h' with
  | none, none, _, _ => rfl
  | none, some (k, p), h, ⟨hk, _⟩ => simp [h k] at hk
  | some (k, p), none, ⟨hk, _⟩, h' => simp [h' k] at hk
  | some (k, p), some (k', p'), ⟨hk, hle⟩, ⟨hk', hle'⟩ =>
    have hp : p = p' := le_antisymm (hle k' p' hk') (hle' k p hk)
    subst hp
    rw [hm k k' p hk hk']

/-- With priorities apart, a finite map has one answer to each call, and leaves one map: only
a peek and a pop could answer one of several entries. -/
theorem Answers.unique (hm : Apart m) {c : Call κ π} {r r' : Reply κ π} {m' m'' : κ → Option π}
    (h : Answers m c r m') (h' : Answers m c r' m'') : r = r' ∧ m' = m'' := by
  cases c with
  | pop =>
    obtain ⟨e, rfl, he, rfl⟩ := h
    obtain ⟨e', rfl, he', rfl⟩ := h'
    rw [IsLeast.unique hm he he']
    exact ⟨rfl, rfl⟩
  | peek =>
    obtain ⟨e, rfl, he, rfl⟩ := h
    obtain ⟨e', rfl, he', rfl⟩ := h'
    rw [IsLeast.unique hm he he']
    exact ⟨rfl, rfl⟩
  | setPriority k p =>
    cases hk : m k with
    | none =>
      simp only [Answers, hk] at h h'
      obtain ⟨rfl, rfl⟩ := h
      obtain ⟨rfl, rfl⟩ := h'
      exact ⟨rfl, rfl⟩
    | some old =>
      simp only [Answers, hk] at h h'
      obtain ⟨rfl, rfl⟩ := h
      obtain ⟨rfl, rfl⟩ := h'
      exact ⟨rfl, rfl⟩
  | push | remove | getPriority | contains | clear | len =>
    obtain ⟨rfl, rfl⟩ := h
    obtain ⟨rfl, rfl⟩ := h'
    exact ⟨rfl, rfl⟩

/-- Calls that keep priorities apart have one sequence of replies. -/
theorem AnswersAll.unique {cs : List (Call κ π)} (hk : KeepsApart m cs) {rs rs' : List (Reply κ π)}
    (h : AnswersAll m cs rs) (h' : AnswersAll m cs rs') : rs = rs' := by
  -- induction on the first run; the second is taken apart alongside it
  induction h generalizing rs' with
  | nil => cases h'; rfl
  | cons hstep _ ih =>
    cases h' with
    | cons hstep' hrest' =>
      cases hk with
      | cons hapart hnext =>
        obtain ⟨rfl, rfl⟩ := Answers.unique hapart hstep hstep'
        rw [ih (hnext _ _ hstep) hrest']

end Unique

/-- Makes calls one after another, and answers their replies. -/
def serveAll [LT π] [DecidableRel (α := π) (· < ·)] :
    KeyedQueue κ π → List (Call κ π) → List (Reply κ π) × KeyedQueue κ π
  | q, [] => ([], q)
  | q, c :: cs => ((q.serve c).1 :: (serveAll (q.serve c).2 cs).1, (serveAll (q.serve c).2 cs).2)

/-- With every key once, calls on the list queue answer as its finite map would. -/
theorem answersAll_serveAll [LinearOrder π] {q : KeyedQueue κ π} (hq : q.Keyed)
    (cs : List (Call κ π)) : AnswersAll q.get? cs (q.serveAll cs).1 := by
  induction cs generalizing q with
  | nil => exact .nil _
  | cons c cs ih => exact .cons (answers_serve hq c) (ih (hq.serve c))

end KeyedQueue

open KeyedQueue (Call Reply Answers AnswersAll IsLeast KeepsApart)

/-! ## The reversed order -/

theorem ReverseOrdered.compare_ne_gt_iff {π : Type} [LinearOrder π] {a b : ReverseOrdered π} :
    compare a b ≠ .gt ↔ b.inner ≤ a.inner :=
  compare_le_iff_le

namespace KeyedHeap

variable {κ π : Type} [LinearOrder π]

/-- The entry of highest reverse-ordered priority, unwrapped, is one of least priority. -/
theorem isLeast_of_isHighest {m : κ → Option (ReverseOrdered π)}
    {e : Option (κ × ReverseOrdered π)} (h : IsHighest m e) :
    IsLeast (fun k => (m k).map (·.inner)) (e.map fun e => (e.1, e.2.inner)) := by
  match e, h with
  | none, h => exact fun k => by simp [h k]
  | some (k, p), ⟨hk, hhigh⟩ =>
    refine ⟨by simp [hk], fun k' p' hk' => ?_⟩
    obtain ⟨q, hq, rfl⟩ := Option.map_eq_some_iff.mp hk'
    exact ReverseOrdered.compare_ne_gt_iff.mp (hhigh k' q hq)

/-- An entry of least priority, wrapped, is one of highest reverse-ordered priority. -/
theorem isHighest_of_isLeast {m : κ → Option π} {e : Option (κ × π)} (h : IsLeast m e) :
    IsHighest (fun k => (m k).map ReverseOrdered.mk) (e.map fun e => (e.1, ⟨e.2⟩)) := by
  match e, h with
  | none, h => exact fun k => by simp [h k]
  | some (k, p), ⟨hk, hle⟩ =>
    refine ⟨by simp [hk], fun k' p' hk' => ?_⟩
    obtain ⟨q, hq, rfl⟩ := Option.map_eq_some_iff.mp hk'
    exact ReverseOrdered.compare_ne_gt_iff.mpr (hle k' q hq)

end KeyedHeap

/-! ## The queue answers as a finite map -/

namespace ReverseQueue

variable {κ π H : Type} (heap : KeyedHeap κ (ReverseOrdered π) H)

/-- The finite map a queue stands for: its heap's, each priority unwrapped. -/
def toMap (contents : H → κ → Option (ReverseOrdered π)) (q : ReverseQueue H) (k : κ) :
    Option π :=
  (contents q.items k).map (·.inner)

/-- Makes one call. -/
def serve (q : ReverseQueue H) : Call κ π → Reply κ π × ReverseQueue H
  | .push k p => (.priority (q.push heap k p).1, (q.push heap k p).2)
  | .pop => (.entry (q.pop heap).1, (q.pop heap).2)
  | .peek => (.entry (q.peek heap), q)
  | .remove k => (.priority (q.remove heap k).1, (q.remove heap k).2)
  | .getPriority k => (.priority (q.getPriority heap k), q)
  | .contains k => (.found (q.contains heap k), q)
  | .setPriority k p =>
    match q.setPriority heap k p with
    | .ok (old, q') => (.updated (.ok old), q')
    | .error e => (.updated (.error e), q)
  | .clear => (.done, q.clear heap)
  | .len => (.count (q.len heap), q)

/-- Makes calls one after another, and answers their replies. -/
def serveAll : ReverseQueue H → List (Call κ π) → List (Reply κ π) × ReverseQueue H
  | q, [] => ([], q)
  | q, c :: cs =>
    ((q.serve heap c).1 :: (serveAll (q.serve heap c).2 cs).1, (serveAll (q.serve heap c).2 cs).2)

theorem push_eq (q : ReverseQueue H) (k : κ) (p : π) :
    q.push heap k p = ((heap.push q.items k ⟨p⟩).1.map (·.inner), ⟨(heap.push q.items k ⟨p⟩).2⟩) :=
  rfl

theorem pop_eq (q : ReverseQueue H) :
    q.pop heap = ((heap.pop q.items).1.map fun e => (e.1, e.2.inner), ⟨(heap.pop q.items).2⟩) :=
  rfl

theorem remove_eq (q : ReverseQueue H) (k : κ) :
    q.remove heap k = ((heap.remove q.items k).1.map (·.inner), ⟨(heap.remove q.items k).2⟩) :=
  rfl

variable [DecidableEq κ] {contents : H → κ → Option (ReverseOrdered π)} {heap}

/-- A heap map changed at one key, unwrapped, is the unwrapped map changed there. -/
theorem toMap_update (q : ReverseQueue H) (h : H) (k : κ) (v : Option (ReverseOrdered π))
    (hc : contents h = Function.update (contents q.items) k v) :
    (⟨h⟩ : ReverseQueue H).toMap contents =
      Function.update (q.toMap contents) k (v.map (·.inner)) := by
  funext k'
  show (contents h k').map (·.inner) = _
  rw [hc]
  exact Function.apply_update (fun _ (o : Option (ReverseOrdered π)) => o.map (·.inner)) _ k v k'

variable [LinearOrder π]

/-- Over a correct heap, each call on the queue answers as the finite map of the heap's
priorities unwrapped would, and leaves the map it should. -/
theorem answers_serve (hlaw : heap.Lawful contents) (q : ReverseQueue H) (c : Call κ π) :
    Answers (q.toMap contents) c (q.serve heap c).1 ((q.serve heap c).2.toMap contents) := by
  cases c with
  | push k p =>
    obtain ⟨hold, hnew⟩ := hlaw.push q.items k ⟨p⟩
    refine ⟨?_, toMap_update q _ k _ hnew⟩
    simp only [serve, push_eq, hold]
    rfl
  | pop =>
    obtain ⟨hhigh, hafter⟩ := hlaw.pop q.items
    refine ⟨_, rfl, KeyedHeap.isLeast_of_isHighest hhigh, ?_⟩
    -- the map left is the old one, less the key handed out if there was one
    rw [serve, pop_eq]
    cases he : (heap.pop q.items).1 with
    | none =>
      rw [he] at hafter
      funext k
      simp only [toMap, hafter, Option.map_none, Option.elim]
    | some e =>
      rw [he] at hafter
      exact toMap_update q _ e.1 none hafter
  | peek => exact ⟨_, rfl, KeyedHeap.isLeast_of_isHighest (hlaw.peek q.items), rfl⟩
  | remove k =>
    obtain ⟨hold, hnew⟩ := hlaw.remove q.items k
    refine ⟨?_, toMap_update q _ k none hnew⟩
    simp only [serve, remove_eq, hold]
    rfl
  | getPriority k =>
    refine ⟨?_, rfl⟩
    simp only [serve, getPriority, hlaw.getPriority]
    rfl
  | contains k =>
    refine ⟨?_, rfl⟩
    simp only [serve, contains, hlaw.getPriority, toMap, Option.isSome_map]
  | setPriority k p =>
    cases hk : contents q.items k with
    | none =>
      obtain ⟨e, he⟩ := hlaw.setPriority_none q.items k ⟨p⟩ hk
      have hmap : q.toMap contents k = none := by simp [toMap, hk]
      simp only [Answers, hmap, serve, setPriority, he, true_and]
    | some old =>
      obtain ⟨h', he, hnew⟩ := hlaw.setPriority_some q.items k ⟨p⟩ old hk
      have hmap : q.toMap contents k = some old.inner := by simp [toMap, hk]
      simp only [Answers, hmap, serve, setPriority, he, true_and]
      exact toMap_update q h' k _ hnew
  | clear =>
    refine ⟨rfl, ?_⟩
    funext k
    simp [serve, clear, toMap, hlaw.clear]
  | len =>
    refine ⟨?_, rfl⟩
    simp only [serve, len, hlaw.len, toMap, Option.isSome_map]

/-- Over a correct heap, calls one after another answer as the finite map would. -/
theorem answersAll_serveAll (hlaw : heap.Lawful contents) (q : ReverseQueue H)
    (cs : List (Call κ π)) : AnswersAll (q.toMap contents) cs (q.serveAll heap cs).1 := by
  induction cs generalizing q with
  | nil => exact .nil _
  | cons c cs ih => exact .cons (answers_serve hlaw q c) (ih _)

/-- The queue holds nothing exactly when its map is empty. -/
theorem isEmpty_iff (hlaw : heap.Lawful contents) (q : ReverseQueue H) :
    q.isEmpty heap = true ↔ q.toMap contents = fun _ => none := by
  rw [isEmpty, hlaw.isEmpty, funext_iff]
  simp [toMap]

/-- A lowest-first queue kept in any correct highest-first heap of reverse-ordered priorities
is a finite map from keys to priorities. A fresh queue stands for the empty map, and from any
queue, calls made one after another answer as the map would, each from the map the calls
before it left: a push answers the key's old priority and sets the new one; a removal answers
and deletes the key's priority; a change of priority answers the old one and sets the new one
for a key present, and is refused, changing nothing, for a key absent; a lookup and the
membership test read the map; the length is the number of keys; a clear empties the map; and a
peek or a pop answers an entry of least priority, the pop deleting it, or nothing when the map
is empty. No condition on ties is needed; when priorities are kept apart the entry of least
priority is the only one (`KeyedQueue.AnswersAll.unique`). -/
theorem reverse_queue_as_finite_map (hlaw : heap.Lawful contents) :
    (ReverseQueue.new heap).toMap contents = (fun _ => none) ∧
      ∀ (q : ReverseQueue H) (cs : List (Call κ π)),
        AnswersAll (q.toMap contents) cs (q.serveAll heap cs).1 := by
  refine ⟨?_, answersAll_serveAll hlaw⟩
  funext k
  simp [toMap, new, hlaw.empty]

/-- Over a correct heap, calls that keep priorities apart answer as the list queue with the
same entries does. -/
theorem serveAll_eq_of_keepsApart (hlaw : heap.Lawful contents) {q : ReverseQueue H}
    {l : KeyedQueue κ π} (hl : l.Keyed) (hm : q.toMap contents = l.get?) {cs : List (Call κ π)}
    (hk : KeepsApart l.get? cs) : (q.serveAll heap cs).1 = (l.serveAll cs).1 := by
  have h := answersAll_serveAll hlaw q cs
  rw [hm] at h
  exact KeyedQueue.AnswersAll.unique hk h (KeyedQueue.answersAll_serveAll hl cs)

end ReverseQueue

/-! ## The list queue is a correct heap -/

namespace KeyedQueue

variable {κ π : Type} [DecidableEq κ] [LinearOrder π]

theorem pop_fst (q : KeyedQueue κ π) : q.pop.1 = q.peek? := by
  rw [pop_eq]
  split <;> simp [*]

/-- The list queue read as a highest-first heap of reverse-ordered priorities: the entry it
hands out first, of least priority, is the one of highest reverse-ordered priority. Its states
are the queues that hold every key once. -/
def reversedHeap : KeyedHeap κ (ReverseOrdered π) {q : KeyedQueue κ π // q.Keyed} where
  empty := ⟨{}, List.nodup_nil⟩
  push h k p :=
    ((h.1.push k p.inner).1.map ReverseOrdered.mk, ⟨(h.1.push k p.inner).2, h.2.push k p.inner⟩)
  pop h := (h.1.pop.1.map fun e => (e.1, ⟨e.2⟩), ⟨h.1.pop.2, h.2.serve .pop⟩)
  peek h := h.1.peek?.map fun e => (e.1, ⟨e.2⟩)
  remove h k := ((h.1.erase k).1.map ReverseOrdered.mk, ⟨(h.1.erase k).2, h.2.erase k⟩)
  getPriority h k := (h.1.get? k).map ReverseOrdered.mk
  setPriority h k p :=
    match hs : h.1.setPriority k p.inner with
    | .ok (old, q') => .ok (⟨old⟩, ⟨q', h.2.setPriority hs⟩)
    | .error _ => .error ()
  clear h := ⟨h.1.clear, List.nodup_nil⟩
  len h := h.1.size
  isEmpty h := h.1.isEmpty

/-- The priorities of a list queue, wrapped. -/
def reversedContents (h : {q : KeyedQueue κ π // q.Keyed}) (k : κ) : Option (ReverseOrdered π) :=
  (h.1.get? k).map ReverseOrdered.mk

omit [LinearOrder π] in
/-- A queue whose map is another's changed at one key has, wrapped, the other's wrapped map
changed there. -/
theorem map_mk_get?_update {q q' : KeyedQueue κ π} {k : κ} {v : Option π}
    (h : q'.get? = Function.update q.get? k v) :
    (fun k' => (q'.get? k').map ReverseOrdered.mk) =
      Function.update (fun k' => (q.get? k').map ReverseOrdered.mk) k (v.map ReverseOrdered.mk) := by
  funext k'
  rw [h]
  exact Function.apply_update (fun _ (o : Option π) => o.map ReverseOrdered.mk) _ k v k'

/-- The wrapped change of priority grants what the list queue grants. -/
theorem reversedHeap_setPriority_ok {h : {q : KeyedQueue κ π // q.Keyed}} {k : κ}
    {p : ReverseOrdered π} {old : π} {q' : KeyedQueue κ π}
    (hs : h.1.setPriority k p.inner = .ok (old, q')) :
    reversedHeap.setPriority h k p = .ok (⟨old⟩, ⟨q', h.2.setPriority hs⟩) := by
  simp only [reversedHeap]
  split
  · rename_i old₂ q₂ hs₂
    rw [hs] at hs₂
    cases hs₂
    rfl
  · rename_i e hs₂
    rw [hs] at hs₂
    cases hs₂

/-- The wrapped change of priority refuses what the list queue refuses. -/
theorem reversedHeap_setPriority_error {h : {q : KeyedQueue κ π // q.Keyed}} {k : κ}
    {p : ReverseOrdered π} {e : UnknownKeyError} (hs : h.1.setPriority k p.inner = .error e) :
    reversedHeap.setPriority h k p = .error () := by
  simp only [reversedHeap]
  split
  · rename_i old q hs₂
    rw [hs] at hs₂
    cases hs₂
  · rfl

/-- The list queue, with every key once, is a correct highest-first heap of reverse-ordered
priorities. -/
theorem lawful_reversedHeap :
    (reversedHeap : KeyedHeap κ (ReverseOrdered π) _).Lawful reversedContents where
  empty _ := rfl
  push h k p :=
    ⟨by simp [reversedHeap, reversedContents], (map_mk_get?_update (get?_push h.1 k p.inner) :)⟩
  peek h := KeyedHeap.isHighest_of_isLeast (isLeast_peek? h.2)
  pop h := by
    refine ⟨?_, ?_⟩
    · show KeyedHeap.IsHighest _ (h.1.pop.1.map _)
      rw [pop_fst]
      exact KeyedHeap.isHighest_of_isLeast (isLeast_peek? h.2)
    · show (fun k' => (h.1.pop.2.get? k').map ReverseOrdered.mk) =
        (h.1.pop.1.map fun e => (e.1, (⟨e.2⟩ : ReverseOrdered π))).elim _ _
      -- the queue is left alone when it is empty, and loses the key it hands out otherwise
      rw [pop_eq]
      cases hp : h.1.peek? with
      | none => rfl
      | some e => exact (map_mk_get?_update (get?_erase_eq_update h.1 e.1) :)
  remove h k := ⟨rfl, (map_mk_get?_update (get?_erase_eq_update h.1 k) :)⟩
  getPriority _ _ := rfl
  setPriority_some h k p old hk := by
    obtain ⟨old', hold', rfl⟩ := Option.map_eq_some_iff.mp hk
    have hs : h.1.setPriority k p.inner =
        .ok (old', { entries := replaceIn k p.inner h.1.entries }) := by
      simp [KeyedQueue.setPriority, hold']
    have hpush : (h.1.push k p.inner).2 = { entries := replaceIn k p.inner h.1.entries } := by
      simp [KeyedQueue.push, hold']
    refine ⟨⟨_, h.2.setPriority hs⟩, reversedHeap_setPriority_ok hs, ?_⟩
    · have hget : (KeyedQueue.mk (replaceIn k p.inner h.1.entries)).get? =
          Function.update h.1.get? k (some p.inner) := by
        rw [← hpush, get?_push]
      exact (map_mk_get?_update hget :)
  setPriority_none h k p hk := by
    have hnone : h.1.get? k = none := by simpa [reversedContents] using hk
    have hs : h.1.setPriority k p.inner = .error {} := by simp [KeyedQueue.setPriority, hnone]
    exact ⟨(), reversedHeap_setPriority_error hs⟩
  clear _ _ := rfl
  len h := by
    show h.1.size = _
    rw [size_eq_ncard h.2]
    simp [reversedContents]
  isEmpty h := by
    show h.1.entries.isEmpty = true ↔ ∀ k, (h.1.get? k).map ReverseOrdered.mk = none
    simp only [List.isEmpty_iff, Option.map_eq_none_iff, get?_eq_none_iff]
    constructor
    · rintro hnil k e he rfl
      simp [hnil] at he
    · intro hall
      exact List.eq_nil_iff_forall_not_mem.mpr fun e he => hall e.1 e he rfl

end KeyedQueue

/-- The list queue read backwards is a correct heap; over it, a queue that is given priorities
5, 3 and 7 for keys 1, 2 and 3, moves key 1 to priority 1, and is then popped, emptied of key 2
and peeked at hands out key 1 first and then key 3. -/
theorem reverse_queue_as_finite_map_of_list_heap :
    let heap : KeyedHeap Nat (ReverseOrdered Nat) _ := KeyedQueue.reversedHeap
    let cs : List (Call Nat Nat) :=
      [.push 1 5, .push 2 3, .push 3 7, .setPriority 1 1, .pop, .remove 2, .peek, .len]
    heap.Lawful KeyedQueue.reversedContents ∧
      (ReverseQueue.new heap).toMap KeyedQueue.reversedContents = (fun _ => none) ∧
      AnswersAll ((ReverseQueue.new heap).toMap KeyedQueue.reversedContents) cs
        ((ReverseQueue.new heap).serveAll heap cs).1 ∧
      ((ReverseQueue.new heap).serveAll heap cs).1 =
        [.priority none, .priority none, .priority none, .updated (.ok 5), .entry (some (1, 1)),
          .priority (some 3), .entry (some (3, 7)), .count 1] :=
  ⟨KeyedQueue.lawful_reversedHeap,
    (ReverseQueue.reverse_queue_as_finite_map KeyedQueue.lawful_reversedHeap).1,
    (ReverseQueue.reverse_queue_as_finite_map KeyedQueue.lawful_reversedHeap).2 _ _, rfl⟩

end SimControl
