import Mathlib
import SimControl.Queue.Keyed
/-!
# Keyed queues: lookups and the least entry

The lookups of a keyed queue read its entries through `List.find?`, so pushing a key the queue
does not hold appends it and leaves every other key's priority alone, and erasing a key takes
out that key alone. The entry handed out first is the first entry of least priority, the entry
`List.argmin` picks by the same order (`peek?_eq_argmin`).
-/

namespace SimControl

namespace KeyedQueue

variable {κ π : Type}

/-! ## Lookups -/

section Lookups

variable [DecidableEq κ]

theorem get?_eq_none_iff {q : KeyedQueue κ π} {k : κ} :
    q.get? k = none ↔ ∀ e ∈ q.entries, e.1 ≠ k := by
  simp [get?]

theorem contains_eq_false_iff {q : KeyedQueue κ π} {k : κ} :
    q.contains k = false ↔ ∀ e ∈ q.entries, e.1 ≠ k := by
  rw [← get?_eq_none_iff]
  simp [contains]

theorem contains_iff_any {q : KeyedQueue κ π} {k : κ} :
    q.contains k = q.entries.any (·.1 == k) := by
  cases h : q.entries.any (·.1 == k)
  · rw [contains_eq_false_iff]
    simpa using h
  · obtain ⟨e, he, hk⟩ := List.any_eq_true.mp h
    cases hc : q.contains k
    · rw [contains_eq_false_iff] at hc
      exact absurd (beq_iff_eq.mp hk) (hc e he)
    · rfl

/-- Pushing a key the queue does not hold appends it. -/
theorem entries_push_of_get?_eq_none {q : KeyedQueue κ π} {k : κ} (h : q.get? k = none) (p : π) :
    (q.push k p).2.entries = q.entries ++ [(k, p)] := by
  simp [push, h]

theorem entries_erase (q : KeyedQueue κ π) (k : κ) :
    (q.erase k).2.entries = q.entries.filter (·.1 != k) := rfl

/-- Pushing a key the queue does not hold gives it its priority and leaves the others alone. -/
theorem get?_push_of_get?_eq_none {q : KeyedQueue κ π} {k : κ} (h : q.get? k = none) (p : π)
    (k' : κ) : (q.push k p).2.get? k' = if k = k' then some p else q.get? k' := by
  unfold get?
  rw [entries_push_of_get?_eq_none h, List.find?_append]
  cases hf : q.entries.find? (·.1 == k') with
  | some e =>
    have hk : e.1 = k' := by simpa using List.find?_some hf
    have hne : k ≠ k' := by
      intro hkk
      rw [get?_eq_none_iff] at h
      exact h e (List.mem_of_find?_eq_some hf) (hk.trans hkk.symm)
    simp [hne]
  | none => by_cases hk : k = k' <;> simp [hk]

/-- Erasing a key takes out that key alone. -/
theorem get?_erase (q : KeyedQueue κ π) (k k' : κ) :
    (q.erase k).2.get? k' = if k = k' then none else q.get? k' := by
  unfold get?
  rw [entries_erase, List.find?_filter]
  by_cases hk : k = k'
  · subst hk
    simp
  · rw [if_neg hk]
    congr 2
    funext e
    by_cases he : e.1 = k'
    · simp [he, Ne.symm hk]
    · simp [he]

end Lookups

/-! ## The least entry -/

section Order

variable [LT π] [DecidableRel (α := π) (· < ·)]

/-- Scanning for the least entry from a best-so-far is the fold `List.argmin` makes, for any
key that orders the priorities the same way. -/
theorem leastFrom_eq_foldl_argAux {β : Type} [LinearOrder β] (f : π → β)
    (hf : ∀ a b : π, a < b ↔ f a < f b) (best : κ × π) (rest : List (κ × π)) :
    some (leastFrom best rest) =
      rest.foldl (List.argAux fun b c => f b.2 < f c.2) (some best) := by
  induction rest generalizing best with
  | nil => rfl
  | cons e rest ih =>
    rw [leastFrom, List.foldl_cons, ih]
    congr 1
    simp only [List.argAux, hf]
    split <;> rfl

/-- The entry handed out first is the first entry of least priority. -/
theorem peek?_eq_argmin {β : Type} [LinearOrder β] (f : π → β)
    (hf : ∀ a b : π, a < b ↔ f a < f b) (q : KeyedQueue κ π) :
    q.peek? = q.entries.argmin fun e => f e.2 := by
  unfold peek?
  split
  · rename_i h
    rw [h]
    rfl
  · rename_i e rest h
    rw [h, leastFrom_eq_foldl_argAux f hf]
    rfl

end Order

end KeyedQueue

end SimControl
