import Mathlib
import SimControl.Proofs.KeyedQueue
import SimControl.Event.Scheduler
/-!
# Scheduler calls and the clock

The calls a unit may make of the scheduler while it fires, and what each does to the clock and
the queue. The clock is `gtime = time + baseInterval - interval`; every call that touches the
queue first moves `time` to `gtime` and then sets the countdown afresh, so none of them moves
the clock (`gtime_perform`), and after any of them the countdown is *synchronised*: its base
equals its value, so that `gtime = time`.

Queued due times are ordered by `Due.key`, time first and activation second, and the unit the
queue hands out first is the `List.argmin` of that key (`peek?_eq_argmin_key`).
-/

namespace SimControl

/-- Due times as a lexicographic key: time first, then the order of activation. -/
def Due.key (d : Due) : Int ×ₗ Nat := toLex (d.time, d.seq)

theorem Due.lt_iff_key_lt (a b : Due) : a < b ↔ a.key < b.key := by
  rw [Due.key, Due.key, Prod.Lex.toLex_lt_toLex]
  exact Iff.rfl

/-- The queued unit handed out first has the least key, the first such in queue order. -/
theorem KeyedQueue.peek?_eq_argmin_key (q : KeyedQueue UnitId Due) :
    q.peek? = q.entries.argmin (·.2.key) :=
  q.peek?_eq_argmin Due.key Due.lt_iff_key_lt

theorem KeyedQueue.mem_of_peek?_eq_some {q : KeyedQueue UnitId Due} {e : UnitId × Due}
    (h : q.peek? = some e) : e ∈ q.entries := by
  rw [q.peek?_eq_argmin_key] at h
  exact List.argmin_mem h

/-- What a unit may ask of the scheduler while it fires. -/
inductive Call where
  | register (name : String)
  | activate (u : UnitId) (delay : Int)
  | activateAbs (u : UnitId) (delay : Int)
  | activateAfter (u : UnitId) (usecs : Nat)
  | cancel (u : UnitId)
  | requestStop
  deriving DecidableEq

namespace Scheduler

/-- Makes one call. -/
def perform (s : Scheduler) : Call → Scheduler
  | .register name => (s.register name).2
  | .activate u d => s.activate u d
  | .activateAbs u d => s.activateAbs u d
  | .activateAfter u usecs => s.activateAfter u usecs
  | .cancel u => s.cancel u
  | .requestStop => s.requestStop

/-- Makes calls in order. -/
def performAll (s : Scheduler) (calls : List Call) : Scheduler := calls.foldl perform s

/-- The countdown is synchronised: nothing has been consumed since it was last set. -/
def Synced (s : Scheduler) : Prop := s.baseInterval = s.interval

variable {s : Scheduler}

theorem gtime_eq_time_of_synced (h : s.Synced) : s.gtime = s.time := by
  unfold gtime
  rw [h]
  omega

/-! ## Synchronising the countdown -/

@[simp] theorem updateTime_time (s : Scheduler) : s.updateTime.time = s.gtime := rfl

@[simp] theorem updateTime_queue (s : Scheduler) : s.updateTime.queue = s.queue := rfl

@[simp] theorem updateTime_config (s : Scheduler) : s.updateTime.config = s.config := rfl

@[simp] theorem updateTime_names (s : Scheduler) : s.updateTime.names = s.names := rfl

@[simp] theorem updateTime_nextSeq (s : Scheduler) : s.updateTime.nextSeq = s.nextSeq := rfl

@[simp] theorem updateTime_stopRequested (s : Scheduler) :
    s.updateTime.stopRequested = s.stopRequested := rfl

@[simp] theorem updateTime_interval (s : Scheduler) : s.updateTime.interval = s.interval := rfl

@[simp] theorem gtime_updateTime (s : Scheduler) : s.updateTime.gtime = s.gtime := by
  simp only [gtime, updateTime]
  omega

theorem synced_updateTime (s : Scheduler) : s.updateTime.Synced := rfl

@[simp] theorem resetInterval_time (s : Scheduler) : s.resetInterval.time = s.time := rfl

@[simp] theorem resetInterval_queue (s : Scheduler) : s.resetInterval.queue = s.queue := rfl

@[simp] theorem resetInterval_config (s : Scheduler) : s.resetInterval.config = s.config := rfl

@[simp] theorem resetInterval_names (s : Scheduler) : s.resetInterval.names = s.names := rfl

@[simp] theorem resetInterval_nextSeq (s : Scheduler) : s.resetInterval.nextSeq = s.nextSeq := rfl

@[simp] theorem resetInterval_stopRequested (s : Scheduler) :
    s.resetInterval.stopRequested = s.stopRequested := rfl

theorem synced_resetInterval (s : Scheduler) : s.resetInterval.Synced := rfl

@[simp] theorem gtime_resetInterval (s : Scheduler) : s.resetInterval.gtime = s.time :=
  gtime_eq_time_of_synced (synced_resetInterval s)

/-- The countdown a reset sets: the time left until the head is due, clamped, or the fixed
wait. -/
theorem resetInterval_interval (s : Scheduler) :
    s.resetInterval.interval =
      match s.queue.peek? with
      | some (_, d) => clampDelay (d.time - s.time)
      | none => s.config.noqueueWait := rfl

/-! ## Each call -/

theorem isActive_eq_any (s : Scheduler) (u : UnitId) :
    s.isActive u = s.queue.entries.any (·.1 == u) :=
  KeyedQueue.contains_iff_any

/-- Activating an idle unit queues it at the current time plus its delay. -/
theorem activate_of_not_isActive {u : UnitId} (h : s.isActive u = false) (d : Int) :
    s.activate u d =
      resetInterval { s.updateTime with
        queue := ⟨s.queue.entries ++ [(u, ⟨s.gtime + d, s.nextSeq⟩)]⟩, nextSeq := s.nextSeq + 1 } := by
  have hget : s.queue.get? u = none := by
    rw [KeyedQueue.get?_eq_none_iff, ← KeyedQueue.contains_eq_false_iff]
    exact h
  have hq : (s.queue.push u ⟨s.gtime + d, s.nextSeq⟩).2 =
      ⟨s.queue.entries ++ [(u, ⟨s.gtime + d, s.nextSeq⟩)]⟩ := by
    simp [KeyedQueue.push, hget]
  simp only [activate, h, Bool.false_eq_true, if_false, updateTime_queue, updateTime_time,
    updateTime_nextSeq]
  rw [hq]

theorem activate_of_isActive {u : UnitId} (h : s.isActive u = true) (d : Int) :
    s.activate u d = s := by
  simp [activate, h]

/-- Cancelling an active unit takes it off the queue. -/
theorem cancel_of_isActive {u : UnitId} (h : s.isActive u = true) :
    s.cancel u =
      resetInterval { s.updateTime with queue := ⟨s.queue.entries.filter (·.1 != u)⟩ } := by
  simp only [cancel, h, if_true]
  rfl

theorem cancel_of_not_isActive {u : UnitId} (h : s.isActive u = false) : s.cancel u = s := by
  simp [cancel, h]

/-- Whether or not the unit was active, cancelling leaves exactly the entries of other units:
an idle unit has none to remove. -/
theorem queue_cancel (s : Scheduler) (u : UnitId) :
    (s.cancel u).queue.entries = s.queue.entries.filter (·.1 != u) := by
  cases h : s.isActive u
  · rw [cancel_of_not_isActive h, eq_comm, List.filter_eq_self]
    intro e he
    have hne := KeyedQueue.contains_eq_false_iff.mp h e he
    simpa using hne
  · rw [cancel_of_isActive h]
    rfl

theorem queue_cancel_eq_erase (s : Scheduler) (u : UnitId) :
    (s.cancel u).queue = (s.queue.erase u).2 := by
  rw [show (s.cancel u).queue = ⟨(s.cancel u).queue.entries⟩ from rfl, queue_cancel]
  rfl

/-- Cancelling a unit leaves every other unit's due time alone. -/
theorem get?_cancel_of_ne (s : Scheduler) {u v : UnitId} (h : u ≠ v) :
    (s.cancel u).queue.get? v = s.queue.get? v := by
  rw [queue_cancel_eq_erase, KeyedQueue.get?_erase, if_neg h]

/-- Activating a unit leaves every other unit's due time alone. -/
theorem get?_activate_of_ne (s : Scheduler) {u v : UnitId} (h : u ≠ v) (d : Int) :
    (s.activate u d).queue.get? v = s.queue.get? v := by
  cases ha : s.isActive u
  · have hget : s.queue.get? u = none := by
      rw [KeyedQueue.get?_eq_none_iff, ← KeyedQueue.contains_eq_false_iff]
      exact ha
    have hpush := KeyedQueue.get?_push_of_get?_eq_none hget ⟨s.gtime + d, s.nextSeq⟩ v
    rw [if_neg h] at hpush
    rw [activate_of_not_isActive ha]
    show KeyedQueue.get? ⟨s.queue.entries ++ [(u, ⟨s.gtime + d, s.nextSeq⟩)]⟩ v = _
    rw [← KeyedQueue.entries_push_of_get?_eq_none hget]
    exact hpush
  · rw [activate_of_isActive ha]

@[simp] theorem gtime_activate (s : Scheduler) (u : UnitId) (d : Int) :
    (s.activate u d).gtime = s.gtime := by
  cases h : s.isActive u
  · rw [activate_of_not_isActive h, gtime_resetInterval]
    rfl
  · rw [activate_of_isActive h]

@[simp] theorem gtime_cancel (s : Scheduler) (u : UnitId) : (s.cancel u).gtime = s.gtime := by
  cases h : s.isActive u
  · rw [cancel_of_not_isActive h]
  · rw [cancel_of_isActive h, gtime_resetInterval]
    rfl

/-- No call moves the clock. -/
@[simp] theorem gtime_perform (s : Scheduler) (c : Call) : (s.perform c).gtime = s.gtime := by
  cases c with
  | register name => rfl
  | activate u d => exact gtime_activate s u d
  | activateAbs u d => simp only [perform, activateAbs, gtime_activate, gtime_cancel]
  | activateAfter u usecs => exact gtime_activate s u _
  | cancel u => exact gtime_cancel s u
  | requestStop => rfl

@[simp] theorem gtime_performAll (s : Scheduler) (calls : List Call) :
    (s.performAll calls).gtime = s.gtime := by
  induction calls generalizing s with
  | nil => rfl
  | cons c calls ih =>
    rw [performAll, List.foldl_cons, ← performAll, ih, gtime_perform]

theorem Synced.activate (h : s.Synced) (u : UnitId) (d : Int) : (s.activate u d).Synced := by
  cases ha : s.isActive u
  · rw [activate_of_not_isActive ha]
    exact synced_resetInterval _
  · rw [activate_of_isActive ha]
    exact h

theorem Synced.cancel (h : s.Synced) (u : UnitId) : (s.cancel u).Synced := by
  cases ha : s.isActive u
  · rw [cancel_of_not_isActive ha]
    exact h
  · rw [cancel_of_isActive ha]
    exact synced_resetInterval _

/-- Calls leave a synchronised countdown synchronised. -/
theorem Synced.perform (h : s.Synced) (c : Call) : (s.perform c).Synced := by
  cases c with
  | register name => exact h
  | activate u d => exact h.activate u d
  | activateAbs u d => exact (h.cancel u).activate u d
  | activateAfter u usecs => exact h.activate u _
  | cancel u => exact h.cancel u
  | requestStop => exact h

theorem Synced.performAll (h : s.Synced) (calls : List Call) : (s.performAll calls).Synced := by
  induction calls generalizing s with
  | nil => exact h
  | cons c calls ih =>
    rw [performAll, List.foldl_cons, ← performAll]
    exact ih (h.perform c)

end Scheduler

end SimControl
