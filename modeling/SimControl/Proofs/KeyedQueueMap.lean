import Mathlib
import SimControl.Proofs.KeyedQueue
/-!
# A keyed queue is a finite map

A keyed queue stands for the finite map `get?` from its keys to their priorities. Every call
answers as that map would and leaves the map it should (`serve_as_finite_map`): a push answers
the key's old priority and sets the new one; a removal answers the priority and deletes the
key; a change of priority answers the old one for a key present, and for a key absent is
refused and changes nothing; lookups and the membership test read the map; the length is the
number of keys; a peek or a pop answers an entry of least priority, the pop deleting it, or
nothing when the map is empty. Among equal priorities the key pushed first comes out, so the
law needs no condition on ties.

The length counts the keys only because no key stands twice among the entries (`Keyed`),
which every call keeps.
-/

namespace SimControl.KeyedQueue

variable {κ π : Type}

/-- No key stands twice among the entries. -/
def Keyed (q : KeyedQueue κ π) : Prop := (q.entries.map (·.1)).Nodup

/-! ## Calls and what a finite map answers -/

/-- A call on a keyed queue. -/
inductive Call (κ π : Type) where
  | push (k : κ) (p : π)
  | pop
  | peek
  | remove (k : κ)
  | getPriority (k : κ)
  | contains (k : κ)
  | setPriority (k : κ) (p : π)
  | clear
  | len

/-- What a call answers. -/
inductive Reply (κ π : Type) where
  /-- The priority a key had, if it had one: push, remove and lookup. -/
  | priority (p : Option π)
  /-- The entry of peek and pop. -/
  | entry (e : Option (κ × π))
  | found (b : Bool)
  | updated (r : Except UnknownKeyError π)
  | count (n : Nat)
  | done

section Map

variable [DecidableEq κ]

/-- Makes one call. -/
def serve [LT π] [DecidableRel (α := π) (· < ·)] (q : KeyedQueue κ π) :
    Call κ π → Reply κ π × KeyedQueue κ π
  | .push k p => (.priority (q.push k p).1, (q.push k p).2)
  | .pop => (.entry q.pop.1, q.pop.2)
  | .peek => (.entry q.peek?, q)
  | .remove k => (.priority (q.erase k).1, (q.erase k).2)
  | .getPriority k => (.priority (q.get? k), q)
  | .contains k => (.found (q.contains k), q)
  | .setPriority k p =>
    match q.setPriority k p with
    | .ok (old, q') => (.updated (.ok old), q')
    | .error e => (.updated (.error e), q)
  | .clear => (.done, q.clear)
  | .len => (.count q.size, q)

/-- The queues reached from an empty one by calls. -/
inductive Reachable [LT π] [DecidableRel (α := π) (· < ·)] : KeyedQueue κ π → Prop
  | empty : Reachable {}
  | serve {q : KeyedQueue κ π} (c : Call κ π) : Reachable q → Reachable (q.serve c).2

/-- An entry of a map of least priority, or nothing when the map is empty. -/
def IsLeast [LE π] (m : κ → Option π) : Option (κ × π) → Prop
  | none => ∀ k, m k = none
  | some (k, p) => m k = some p ∧ ∀ k' p', m k' = some p' → p ≤ p'

/-- What a finite map answers to a call, and the map it leaves. -/
def Answers [LE π] (m : κ → Option π) : Call κ π → Reply κ π → (κ → Option π) → Prop
  | .push k p, r, m' => r = .priority (m k) ∧ m' = Function.update m k (some p)
  | .pop, r, m' =>
    ∃ e, r = .entry e ∧ IsLeast m e ∧ m' = e.elim m fun x => Function.update m x.1 none
  | .peek, r, m' => ∃ e, r = .entry e ∧ IsLeast m e ∧ m' = m
  | .remove k, r, m' => r = .priority (m k) ∧ m' = Function.update m k none
  | .getPriority k, r, m' => r = .priority (m k) ∧ m' = m
  | .contains k, r, m' => r = .found (m k).isSome ∧ m' = m
  | .setPriority k p, r, m' =>
    match m k with
    | some old => r = .updated (.ok old) ∧ m' = Function.update m k (some p)
    | none => r = .updated (.error {}) ∧ m' = m
  | .clear, r, m' => r = .done ∧ m' = fun _ => none
  | .len, r, m' => r = .count {k | (m k).isSome}.ncard ∧ m' = m

/-! ## Lookups after each call -/

theorem mem_of_get?_eq_some {q : KeyedQueue κ π} {k : κ} {p : π} (h : q.get? k = some p) :
    (k, p) ∈ q.entries := by
  obtain ⟨e, he, rfl⟩ := Option.map_eq_some_iff.mp h
  have hk : e.1 = k := by simpa using List.find?_some he
  rw [← hk]
  exact List.mem_of_find?_eq_some he

/-- With every key once, an entry is what the lookup of its key finds. -/
theorem get?_eq_some_of_mem {q : KeyedQueue κ π} (hq : q.Keyed) {k : κ} {p : π}
    (h : (k, p) ∈ q.entries) : q.get? k = some p := by
  have hfound : (q.entries.find? (·.1 == k)).isSome :=
    List.find?_isSome.mpr ⟨(k, p), h, by simp⟩
  obtain ⟨e, he⟩ := Option.isSome_iff_exists.mp hfound
  have hek : e.1 = k := by simpa using List.find?_some he
  have heq : e = (k, p) := List.inj_on_of_nodup_map hq (List.mem_of_find?_eq_some he) h hek
  simp [get?, he, heq]

/-- Replacing the priority of a key that stands among the entries gives it the new priority and
leaves every other key's alone. -/
theorem find?_replaceIn {k : κ} {es : List (κ × π)} (h : (es.find? (·.1 == k)).isSome) (p : π)
    (k' : κ) : ((replaceIn k p es).find? (·.1 == k')).map (·.2) =
      if k = k' then some p else (es.find? (·.1 == k')).map (·.2) := by
  induction es with
  | nil => simp at h
  | cons e rest ih =>
    by_cases hek : e.1 = k
    · rw [replaceIn, if_pos hek]
      by_cases hkk : k = k' <;> simp [hek, hkk]
    · rw [replaceIn, if_neg hek]
      have hrest : (rest.find? (·.1 == k)).isSome := by simpa [List.find?_cons, hek] using h
      by_cases hek' : e.1 = k'
      · have hkk : k ≠ k' := fun hkk => hek (hek'.trans hkk.symm)
        simp [hek', hkk]
      · simp [hek', ih hrest]

theorem map_fst_replaceIn (k : κ) (p : π) (es : List (κ × π)) :
    (replaceIn k p es).map (·.1) = es.map (·.1) := by
  induction es with
  | nil => rfl
  | cons e rest ih =>
    by_cases hek : e.1 = k
    · simp [replaceIn, hek]
    · simp [replaceIn, hek, ih]

@[simp] theorem push_fst (q : KeyedQueue κ π) (k : κ) (p : π) : (q.push k p).1 = q.get? k := by
  unfold push
  split <;> simp [*]

/-- A push gives the key its priority and leaves every other key's alone. -/
theorem get?_push (q : KeyedQueue κ π) (k : κ) (p : π) :
    (q.push k p).2.get? = Function.update q.get? k (some p) := by
  funext k'
  rw [Function.update_apply]
  cases h : q.get? k with
  | none =>
    rw [get?_push_of_get?_eq_none h]
    by_cases hk : k' = k
    · simp [hk]
    · simp [hk, Ne.symm hk]
  | some old =>
    have hsome : (q.entries.find? (·.1 == k)).isSome := by
      simpa [get?] using congrArg Option.isSome h
    simp only [KeyedQueue.push, h]
    unfold get?
    rw [find?_replaceIn hsome]
    by_cases hk : k' = k
    · simp [hk]
    · simp [hk, Ne.symm hk]

theorem get?_erase_eq_update (q : KeyedQueue κ π) (k : κ) :
    (q.erase k).2.get? = Function.update q.get? k none := by
  funext k'
  rw [get?_erase, Function.update_apply]
  by_cases hk : k' = k
  · simp [hk]
  · simp [hk, Ne.symm hk]

@[simp] theorem get?_clear (q : KeyedQueue κ π) (k : κ) : q.clear.get? k = none := rfl

/-! ## Keys stand once -/

theorem Keyed.push {q : KeyedQueue κ π} (hq : q.Keyed) (k : κ) (p : π) : (q.push k p).2.Keyed := by
  unfold KeyedQueue.push
  split
  · show ((replaceIn k p q.entries).map (·.1)).Nodup
    rw [map_fst_replaceIn]
    exact hq
  · rename_i h
    have hk : k ∉ q.entries.map (·.1) := by
      rw [List.mem_map]
      rintro ⟨e, he, hek⟩
      exact get?_eq_none_iff.mp h e he hek
    show ((q.entries ++ [(k, p)]).map (·.1)).Nodup
    rw [List.map_append, List.nodup_append]
    exact ⟨hq, List.nodup_singleton _, fun a ha b hb => by
      simp only [List.map_cons, List.map_nil, List.mem_singleton] at hb
      rintro rfl
      exact hk (hb ▸ ha)⟩

theorem Keyed.erase {q : KeyedQueue κ π} (hq : q.Keyed) (k : κ) : (q.erase k).2.Keyed := by
  show ((q.entries.filter (·.1 != k)).map (·.1)).Nodup
  exact (List.filter_sublist.map _).nodup hq

theorem Keyed.setPriority {q q' : KeyedQueue κ π} (hq : q.Keyed) {k : κ} {p old : π}
    (h : q.setPriority k p = .ok (old, q')) : q'.Keyed := by
  unfold KeyedQueue.setPriority at h
  split at h
  · cases h
    show ((replaceIn k p q.entries).map (·.1)).Nodup
    rw [map_fst_replaceIn]
    exact hq
  · cases h

/-- With every key once, the length is the number of keys. -/
theorem size_eq_ncard {q : KeyedQueue κ π} (hq : q.Keyed) :
    q.size = {k | (q.get? k).isSome}.ncard := by
  have hset : {k | (q.get? k).isSome} = ↑(q.entries.map (·.1)).toFinset := by
    ext k
    rw [Finset.mem_coe, List.mem_toFinset, List.mem_map]
    show (q.get? k).isSome = true ↔ _
    rw [Option.isSome_iff_ne_none, ne_eq, get?_eq_none_iff]
    simp
  rw [hset, Set.ncard_coe_finset, List.toFinset_card_of_nodup hq, List.length_map]
  rfl

end Map

/-! ## The least entry -/

section Order

variable [DecidableEq κ] [LinearOrder π]

omit [DecidableEq κ] in
theorem peek?_eq_argmin_self (q : KeyedQueue κ π) : q.peek? = q.entries.argmin (·.2) :=
  q.peek?_eq_argmin id fun _ _ => Iff.rfl

/-- A peek answers an entry of least priority, or nothing when there is none. -/
theorem isLeast_peek? {q : KeyedQueue κ π} (hq : q.Keyed) : IsLeast q.get? q.peek? := by
  cases h : q.peek? with
  | none =>
    rw [peek?_eq_argmin_self, List.argmin_eq_none] at h
    intro k
    rw [get?_eq_none_iff, h]
    nofun
  | some e =>
    obtain ⟨k, p⟩ := e
    rw [peek?_eq_argmin_self] at h
    refine ⟨get?_eq_some_of_mem hq (List.argmin_mem h), fun k' p' h' => ?_⟩
    exact List.le_of_mem_argmin (f := (·.2)) (mem_of_get?_eq_some h') h

theorem pop_eq (q : KeyedQueue κ π) :
    q.pop = match q.peek? with
      | none => (none, q)
      | some e => (some e, (q.erase e.1).2) := rfl

theorem Keyed.serve {q : KeyedQueue κ π} (hq : q.Keyed) (c : Call κ π) : (q.serve c).2.Keyed := by
  cases c with
  | push k p => exact hq.push k p
  | pop =>
    show q.pop.2.Keyed
    rw [pop_eq]
    split
    · exact hq
    · exact hq.erase _
  | remove k => exact hq.erase k
  | setPriority k p =>
    show (match q.setPriority k p with
      | .ok (old, q') => (Reply.updated (.ok old), q')
      | .error e => (.updated (.error e), q)).2.Keyed
    split
    · rename_i old q' h
      exact hq.setPriority h
    · exact hq
  | clear => exact List.nodup_nil
  | peek | getPriority _ | contains _ | len => exact hq

/-- With every key once, each call answers as the finite map `get?` would, and leaves the map
it should. -/
theorem answers_serve {q : KeyedQueue κ π} (hq : q.Keyed) (c : Call κ π) :
    Answers q.get? c (q.serve c).1 (q.serve c).2.get? := by
  cases c with
  | push k p => exact ⟨by simp [serve], get?_push q k p⟩
  | pop =>
    refine ⟨q.peek?, ?_, isLeast_peek? hq, ?_⟩
    · show Reply.entry q.pop.1 = _
      rw [pop_eq]
      split <;> simp [*]
    · show q.pop.2.get? = _
      rw [pop_eq]
      split
      · simp [*]
      · simp [*, get?_erase_eq_update]
  | peek => exact ⟨q.peek?, rfl, isLeast_peek? hq, rfl⟩
  | remove k => exact ⟨rfl, get?_erase_eq_update q k⟩
  | getPriority k => exact ⟨rfl, rfl⟩
  | contains k => exact ⟨rfl, rfl⟩
  | setPriority k p =>
    show match q.get? k with
      | some old => _ ∧ _
      | none => _ ∧ _
    cases h : q.get? k with
    | none => simp [serve, KeyedQueue.setPriority, h]
    | some old =>
      have hpush : (q.push k p).2 = { entries := replaceIn k p q.entries } := by
        simp [KeyedQueue.push, h]
      simp only [serve, KeyedQueue.setPriority, h, true_and]
      rw [← hpush, get?_push]
  | clear => exact ⟨rfl, rfl⟩
  | len => exact ⟨congrArg Reply.count (size_eq_ncard hq), rfl⟩

theorem Reachable.keyed {q : KeyedQueue κ π} (hq : q.Reachable) : q.Keyed := by
  induction hq with
  | empty => exact List.nodup_nil
  | serve c _ ih => exact ih.serve c

/-- A keyed queue is a finite map from keys to priorities: in every queue reached from an empty
one, a push answers the key's old priority and sets the new one; a removal answers and deletes
the key's priority; a change of priority answers the old one and sets the new one for a key
present, and is refused, changing nothing, for a key absent; a lookup and the membership test
read the map; the length is the number of keys; a clear empties the map; and a peek or a pop
answers an entry of least priority, the pop deleting it, or nothing when the map is empty. -/
theorem serve_as_finite_map {q : KeyedQueue κ π} (hq : q.Reachable) (c : Call κ π) :
    Answers q.get? c (q.serve c).1 (q.serve c).2.get? :=
  answers_serve hq.keyed c

end Order

end SimControl.KeyedQueue
