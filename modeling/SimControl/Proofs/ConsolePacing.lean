import Mathlib
import SimControl.Proofs.StepCount
import SimControl.Proofs.KeyedQueueMap
/-!
# The console's pacing

The console of the test bench hands over the characters TYPE gives it one at a time, paced by
its unit: the unit is queued exactly while characters wait, and each firing hands over the
first of them and queues the unit a character time later while more wait. Seen from the
scheduler, the waiting characters have a schedule (`Console.schedule`): the first goes out
when the unit is due, each further one a character time after the one before. A slice of a
run keeps that schedule: an instruction that types appends its text to it, to go out a
character time after the last character waiting or after now when none waits; an event in
which the unit fires hands over the first character, at the time the schedule gave it, to the
output and then to the console's expect rules; any other event leaves it alone.

* `Console.Paced`: the unit is queued, once, exactly while characters wait, never overdue.
* `Console.Fired`: what an event does at the console.
* `Machine.ConsoleStep`: what a slice does at the console.
-/

namespace SimControl.Scheduler

variable {s : Scheduler}

theorem isActive_eq_isSome (s : Scheduler) (u : UnitId) : s.isActive u = (s.queue.get? u).isSome :=
  rfl

/-- Activating a unit adds no entry but its own. -/
theorem mem_entries_activate {v : UnitId} {d : Int} {e : UnitId × Due}
    (he : e ∈ (s.activate v d).queue.entries) : e ∈ s.queue.entries ∨ e.1 = v := by
  cases ha : s.isActive v
  · rw [Scheduler.activate_of_not_isActive ha] at he
    rcases List.mem_append.mp he with he | he
    · exact .inl he
    · rw [List.mem_singleton] at he
      exact .inr (by rw [he])
  · rw [Scheduler.activate_of_isActive ha] at he
    exact .inl he

/-- An idle unit, once activated, is due its delay from now. -/
theorem get?_activate_self {u : UnitId} (hu : s.isActive u = false) (d : Int) :
    (s.activate u d).queue.get? u = some ⟨s.gtime + d, s.nextSeq⟩ := by
  have hget : s.queue.get? u = none := by
    rw [KeyedQueue.get?_eq_none_iff, ← KeyedQueue.contains_eq_false_iff]
    exact hu
  have hpush := KeyedQueue.get?_push_of_get?_eq_none hget ⟨s.gtime + d, s.nextSeq⟩ u
  rw [if_pos rfl, KeyedQueue.get?] at hpush
  rw [Scheduler.activate_of_not_isActive hu]
  show KeyedQueue.get? ⟨s.queue.entries ++ [(u, ⟨s.gtime + d, s.nextSeq⟩)]⟩ u = _
  rw [← KeyedQueue.entries_push_of_get?_eq_none hget]
  exact hpush

@[simp] theorem activate_stopRequested (s : Scheduler) (u : UnitId) (d : Int) :
    (s.activate u d).stopRequested = s.stopRequested := by
  cases h : s.isActive u
  · rw [activate_of_not_isActive h]
    rfl
  · rw [activate_of_isActive h]

end SimControl.Scheduler

namespace SimControl.Bench

/-- Characters going out a character time apart, the first at `d`. -/
def spaced (d : Int) : List UInt8 → List (UInt8 × Int)
  | [] => []
  | b :: bs => (b, d) :: spaced (d + characterTime) bs

@[simp] theorem map_fst_spaced (d : Int) (bs : List UInt8) : (spaced d bs).map Prod.fst = bs := by
  induction bs generalizing d with
  | nil => rfl
  | cons b bs ih => simp [spaced, ih]

theorem spaced_append (d : Int) (xs ys : List UInt8) :
    spaced d (xs ++ ys) = spaced d xs ++ spaced (d + characterTime * xs.length) ys := by
  induction xs generalizing d with
  | nil => simp [spaced]
  | cons x xs ih =>
    rw [List.cons_append, spaced, spaced, ih, List.cons_append, List.length_cons]
    congr 3
    push_cast
    ring

namespace Console

/-- The characters waiting, each with the time it goes out unless the console is reset: the
first when the console unit is due, each further one a character time after the one before. -/
def schedule (con : Console) (s : Scheduler) : List (UInt8 × Int) :=
  match s.queue.get? con.unit with
  | some d => spaced d.time con.pending.toList
  | none => []

/-- When a character written now goes out: a character time after the last one waiting, or
after now when none waits. -/
def resume (con : Console) (s : Scheduler) : Int :=
  match s.queue.get? con.unit with
  | some d => d.time + characterTime * con.pending.toList.length
  | none => s.gtime + characterTime

/-- The console unit is queued exactly while characters wait, with one entry, for a time the
clock has not passed. -/
structure Paced (con : Console) (s : Scheduler) : Prop where
  queued : s.isActive con.unit = !con.pending.isEmpty
  single : ∀ e ∈ s.queue.entries, e.1 = con.unit → s.queue.get? con.unit = some e.2
  not_overdue : ∀ d, s.queue.get? con.unit = some d → s.gtime ≤ d.time

variable {con : Console} {s : Scheduler}

/-- The console's unit is idle exactly while nothing waits. -/
theorem Paced.get?_eq_none_iff (h : con.Paced s) :
    s.queue.get? con.unit = none ↔ con.pending.toList = [] := by
  rw [← Fifo.isEmpty_iff, ← Option.isNone_iff_eq_none, ← Option.not_isSome,
    ← Scheduler.isActive_eq_isSome, h.queued, Bool.not_not]

/-- The schedule holds the waiting characters, in order. -/
theorem Paced.map_fst_schedule (h : con.Paced s) : (con.schedule s).map Prod.fst = con.pending.toList := by
  unfold schedule
  cases hd : s.queue.get? con.unit with
  | some d => exact map_fst_spaced _ _
  | none =>
    rw [h.get?_eq_none_iff.mp hd]
    rfl

/-- Activating another unit leaves the console and its schedule alone. -/
theorem Paced.activate_other (h : con.Paced s) {v : UnitId} (hv : v ≠ con.unit) (d : Int) :
    con.Paced (s.activate v d) ∧ con.schedule (s.activate v d) = con.schedule s := by
  have hget := Scheduler.get?_activate_of_ne s hv d
  refine ⟨⟨?_, ?_, ?_⟩, by simp only [schedule, hget]⟩
  · rw [Scheduler.isActive_eq_isSome, hget, ← Scheduler.isActive_eq_isSome]
    exact h.queued
  · intro e he hu
    rw [hget]
    rcases Scheduler.mem_entries_activate he with he | hev
    · exact h.single e he hu
    · exact absurd (hev.symm.trans hu) hv
  · intro d' hd'
    rw [hget] at hd'
    rw [Scheduler.gtime_activate]
    exact h.not_overdue d' hd'

/-- A console whose unit has no entry, queued a character time ahead if characters wait, is
paced, its characters going out from a character time on. Both a write to an idle console and
the console's own firing end this way. -/
theorem paced_requeue (con : Console) (hnone : ∀ e ∈ s.queue.entries, e.1 ≠ con.unit) :
    con.Paced (if con.pending.isEmpty then s else s.activate con.unit characterTime) ∧
      con.schedule (if con.pending.isEmpty then s else s.activate con.unit characterTime) =
        spaced (s.gtime + characterTime) con.pending.toList := by
  have hidle : s.isActive con.unit = false := KeyedQueue.contains_eq_false_iff.mpr hnone
  have hd : s.queue.get? con.unit = none := KeyedQueue.get?_eq_none_iff.mpr hnone
  cases hp : con.pending.isEmpty with
  | true =>
    have hnil : con.pending.toList = [] := (Fifo.isEmpty_iff _).mp hp
    simp only [if_true]
    refine ⟨⟨by rw [hidle, hp]; rfl, fun e he hu => absurd hu (hnone e he), fun d hd' => ?_⟩, ?_⟩
    · rw [hd] at hd'
      cases hd'
    · simp only [schedule, hd, hnil, spaced]
  | false =>
    have hget := Scheduler.get?_activate_self hidle characterTime
    simp only [Bool.false_eq_true, if_false]
    refine ⟨⟨?_, ?_, ?_⟩, ?_⟩
    · rw [Scheduler.isActive_eq_isSome, hget, hp]
      rfl
    · intro e he hu
      rw [hget]
      rw [Scheduler.activate_of_not_isActive hidle] at he
      rcases List.mem_append.mp he with he | he
      · exact absurd hu (hnone e he)
      · rw [List.mem_singleton] at he
        rw [he]
    · intro d hd'
      rw [hget, Option.some.injEq] at hd'
      rw [← hd', Scheduler.gtime_activate]
      simp [characterTime]
    · simp only [schedule, hget]

/-- Writing keeps the console paced and appends the text to its schedule, a character time
after the last character waiting, or after now when none waits. -/
theorem Paced.write (h : con.Paced s) (bytes : List UInt8) :
    (con.write s bytes).1.Paced (con.write s bytes).2 ∧
      (con.write s bytes).1.schedule (con.write s bytes).2 = con.schedule s ++ spaced (con.resume s) bytes := by
  have hpending : (con.pending.pushAll bytes).toList = con.pending.toList ++ bytes :=
    Fifo.toList_pushAll _ _
  cases hd : s.queue.get? con.unit with
  | some d =>
    -- the unit is queued: it keeps its time, and the text goes after the characters waiting
    have hact : s.isActive con.unit = true := by rw [Scheduler.isActive_eq_isSome, hd]; rfl
    have hwait : con.pending.isEmpty = false := by simpa [hact] using h.queued.symm
    have hne : (con.pending.pushAll bytes).isEmpty = false := by
      rw [Fifo.isEmpty_eq, hpending] at *
      simp_all
    have hw : con.write s bytes = ({ con with pending := con.pending.pushAll bytes }, s) := by
      unfold Console.write
      simp only [hne, Bool.false_eq_true, if_false, Scheduler.activate_of_isActive hact]
    rw [hw]
    refine ⟨⟨?_, h.single, h.not_overdue⟩, ?_⟩
    · rw [hact, hne]
      rfl
    · simp only [schedule, resume, hd, hpending, spaced_append]
  | none =>
    -- the unit is idle, so nothing waits, and the text goes out from a character time on
    have hnone : ∀ e ∈ s.queue.entries, e.1 ≠ con.unit := KeyedQueue.get?_eq_none_iff.mp hd
    have hwait : con.pending.toList = [] := h.get?_eq_none_iff.mp hd
    obtain ⟨hpaced, hsched⟩ := paced_requeue { con with pending := con.pending.pushAll bytes }
      hnone
    refine ⟨hpaced, ?_⟩
    rw [show (con.write s bytes).1.schedule (con.write s bytes).2 = _ from hsched]
    simp only [schedule, resume, hd, hpending, hwait, List.nil_append]

/-- An instruction time with time left on the countdown keeps the console paced: the unit is
due no earlier than the head, which the countdown says is still ahead. -/
theorem Paced.consume_one (h : con.Paced s) (hc : s.Clocked) (hi : 0 < s.interval) :
    con.Paced (s.consume 1) ∧ con.schedule (s.consume 1) = con.schedule s := by
  refine ⟨⟨h.queued, h.single, fun d hd => ?_⟩, rfl⟩
  have hle := hc.interval_le_due (KeyedQueue.mem_of_get?_eq_some hd)
  have hnext := Scheduler.gtime_consume_one hi hc.interval_le
  rw [hnext]
  dsimp only at hle
  omega

/-! ## An event -/

/-- What an event does at the console: nothing, or its unit fires and hands over the first
character waiting, at the time the schedule gave it. -/
inductive Fired (con : Console) (s : Scheduler) : Console → Scheduler → Prop
  | none {s' : Scheduler} : con.schedule s' = con.schedule s → Fired con s con s'
  | one {s' : Scheduler} {b : UInt8} {rest : List (UInt8 × Int)} {p : Fifo UInt8} :
      con.schedule s = (b, s.gtime) :: rest →
      ({ con with pending := p, emitted := con.emitted ++ [b] } : Console).schedule s' = rest →
      Fired con s { con with pending := p, emitted := con.emitted ++ [b] } s'

/-- The scheduler once the head is taken off, at the time the loop of events moved to. -/
abbrev taken (s : Scheduler) (u : UnitId) (due : Due) : Scheduler :=
  Scheduler.resetInterval { s with queue := (s.queue.erase u).2, time := max s.time due.time }

/-- Taking another unit off the head, due by now, leaves the console and the clock alone. -/
theorem Paced.take_other (h : con.Paced s) (hs : s.Synced) {v : UnitId} {due : Due}
    (hv : v ≠ con.unit) (hdue : due.time ≤ s.time) :
    con.Paced (taken s v due) ∧ con.schedule (taken s v due) = con.schedule s ∧
      (taken s v due).gtime = s.gtime := by
  have hget : (taken s v due).queue.get? con.unit = s.queue.get? con.unit := by
    show (s.queue.erase v).2.get? con.unit = _
    rw [KeyedQueue.get?_erase, if_neg hv]
  have hgtime : (taken s v due).gtime = s.gtime := by
    rw [Scheduler.gtime_resetInterval, Scheduler.gtime_eq_time_of_synced hs]
    exact max_eq_left hdue
  refine ⟨⟨?_, ?_, ?_⟩, by simp only [schedule, hget], hgtime⟩
  · rw [Scheduler.isActive_eq_isSome, hget, ← Scheduler.isActive_eq_isSome]
    exact h.queued
  · intro e he hu
    rw [hget]
    exact h.single e (List.mem_filter.mp he).1 hu
  · intro d hd
    rw [hget] at hd
    rw [hgtime]
    exact h.not_overdue d hd

end Console

/-- Every unit but the console's stops the machine and leaves the console alone. -/
theorem units_of_ne {con : Console} {v : UnitId} (hv : v ≠ con.unit) (s : Scheduler) :
    ∃ e, Context.units Console.react v con s = (.error e, con, s) := by
  unfold Context.units
  split
  · exact ⟨_, rfl⟩
  · split
    · exact ⟨_, rfl⟩
    · unfold Console.react
      rw [if_pos hv]
      exact ⟨_, rfl⟩

namespace Console

variable {con : Console} {s : Scheduler}

/-- A loop of events whose head is due by now and is not the console: the first unit it takes
stops the machine, and the console is left alone. -/
theorem fireDue_head_other (h : con.Paced s) (hs : s.Synced)
    (hhead : ∀ e, s.queue.peek? = some e → e.1 ≠ con.unit ∧ e.2.time ≤ s.time) (fuel : Nat) :
    ∃ r s', Scheduler.fireDue (Context.units Console.react) fuel con s = (r, con, s') ∧ con.Paced s' ∧
      con.schedule s' = con.schedule s ∧ s'.gtime = s.gtime := by
  cases fuel with
  | zero => exact ⟨_, s, rfl, h, rfl, rfl⟩
  | succ fuel =>
    rw [Scheduler.fireDue, KeyedQueue.pop]
    cases hp : s.queue.peek? with
    | none => exact ⟨_, s, rfl, h, rfl, rfl⟩
    | some e =>
      obtain ⟨v, due⟩ := e
      obtain ⟨hv, hdue⟩ := hhead _ hp
      obtain ⟨err, herr⟩ := units_of_ne hv (taken s v due)
      dsimp only
      rw [herr]
      exact ⟨_, _, rfl, h.take_other hs hv hdue⟩

/-- The console at the head of the queue, due by now: its entry is its only one, due exactly
now, and characters wait. -/
theorem Paced.head_self (h : con.Paced s) (hs : s.Synced) {due : Due}
    (hp : s.queue.peek? = some (con.unit, due)) (hdue : due.time ≤ s.time) :
    s.queue.get? con.unit = some due ∧ due.time = s.gtime ∧ con.pending.isEmpty = false := by
  have hget := h.single _ (KeyedQueue.mem_of_peek?_eq_some hp) rfl
  have hlate := h.not_overdue due hget
  rw [Scheduler.gtime_eq_time_of_synced hs] at hlate ⊢
  have hact : s.isActive con.unit = true := by rw [Scheduler.isActive_eq_isSome, hget]; rfl
  have hwait := h.queued
  rw [hact] at hwait
  exact ⟨hget, by omega, by simpa using hwait.symm⟩

/-- The console's own unit taken off the head, due by now: it hands over the first character
waiting, at the time the schedule gave it, and is queued a character time later while more
wait. -/
theorem Paced.react_self (h : con.Paced s) (hs : s.Synced) {due : Due}
    (hp : s.queue.peek? = some (con.unit, due)) (hdue : due.time ≤ s.time) :
    ∃ con' s', Console.react con.unit con (taken s con.unit due) = (.ok (), con', s') ∧
      Fired con s con' s' ∧ con'.Paced s' ∧ con'.unit = con.unit ∧ s'.gtime = s.gtime ∧
      s'.stopRequested = s.stopRequested ∧ s'.Synced ∧
      ∀ d, s'.queue.get? con.unit = some d → s.time < d.time := by
  obtain ⟨hget, hnow, hwait⟩ := h.head_self hs hp hdue
  -- the first character waiting comes off
  have hpop := Fifo.pop?_toList con.pending
  rw [← Fifo.isEmpty_eq, hwait] at hpop
  obtain ⟨⟨b, rest⟩, hbr, hlist⟩ := Option.map_eq_some_iff.mp hpop
  simp only at hlist
  -- the unit has no entry once taken off
  have hnone : ∀ e ∈ (taken s con.unit due).queue.entries, e.1 ≠ con.unit := by
    intro e he hu
    have := (List.mem_filter.mp he).2
    simp [hu] at this
  have hgtime : (taken s con.unit due).gtime = s.gtime := by
    rw [Scheduler.gtime_resetInterval, Scheduler.gtime_eq_time_of_synced hs]
    exact max_eq_left hdue
  let con' : Console := { con with pending := rest, emitted := con.emitted ++ [b] }
  obtain ⟨hpaced, hsched⟩ := paced_requeue con' hnone
  have hreact : Console.react con.unit con (taken s con.unit due) = (.ok (), con',
      if con'.pending.isEmpty then taken s con.unit due
      else (taken s con.unit due).activate con.unit characterTime) := by
    unfold Console.react
    simp only [ne_eq, not_true_eq_false, if_false, hbr]
    rfl
  refine ⟨con', _, hreact, .one ?_ hsched, hpaced, rfl, ?_, ?_, ?_, ?_⟩
  · simp only [schedule, hget, ← hlist, spaced, hnow, hgtime]
    rfl
  · split
    · exact hgtime
    · rw [Scheduler.gtime_activate, hgtime]
  · split
    · rfl
    · exact Scheduler.activate_stopRequested _ _ _
  · split
    · exact Scheduler.synced_resetInterval _
    · exact (Scheduler.synced_resetInterval _).activate _ _
  · -- queued again, the unit is due a character time from now
    have hidle : (taken s con.unit due).isActive con.unit = false :=
      KeyedQueue.contains_eq_false_iff.mpr hnone
    intro d hd
    split at hd
    · rw [KeyedQueue.get?_eq_none_iff.mpr hnone] at hd
      cases hd
    · rw [Scheduler.get?_activate_self hidle, Option.some.injEq] at hd
      rw [← hd, hgtime, Scheduler.gtime_eq_time_of_synced hs]
      simp [characterTime]

/-- A firing seen through a schedule that a later step keeps. -/
theorem Fired.of_schedule {con' : Console} {s₁ s₂ : Scheduler} (h : Fired con s con' s₁)
    (hs : con'.schedule s₂ = con'.schedule s₁) : Fired con s con' s₂ := by
  cases h with
  | none h₁ => exact .none (hs.trans h₁)
  | one h₁ h₂ => exact .one h₁ (hs.trans h₂)

/-- A loop of events whose head is due by now: the console's unit fires at most once, handing
over its first character at the time the schedule gave it, and the clock stays. -/
theorem fireDue_units (h : con.Paced s) (hs : s.Synced)
    (hready : ∀ e, s.queue.peek? = some e → e.2.time ≤ s.time)
    (hexp : con.unit ≠ Context.expectUnit) (hstep : con.unit ≠ Context.stepUnit) (fuel : Nat) :
    ∃ r con' s', Scheduler.fireDue (Context.units Console.react) fuel con s = (r, con', s') ∧
      Fired con s con' s' ∧ con'.Paced s' ∧ con'.unit = con.unit ∧ s'.gtime = s.gtime := by
  cases fuel with
  | zero => exact ⟨_, con, s, rfl, .none rfl, h, rfl, rfl⟩
  | succ fuel =>
    cases hp : s.queue.peek? with
    | none =>
      rw [Scheduler.fireDue, KeyedQueue.pop, hp]
      exact ⟨_, con, s, rfl, .none rfl, h, rfl, rfl⟩
    | some e =>
      obtain ⟨v, due⟩ := e
      have hdue := hready _ hp
      by_cases hv : v = con.unit
      · subst hv
        -- the console fires; a unit due with it is another's, and stops the loop
        obtain ⟨con₁, s₁, hreact, hfired, hp₁, hu₁, hg₁, hstop₁, hs₁, hlater⟩ :=
          h.react_self hs hp hdue
        have hunits : Context.units Console.react con.unit con (taken s con.unit due) =
            (.ok (), con₁, s₁) := by
          unfold Context.units
          rw [if_neg hexp, if_neg hstep]
          exact hreact
        have hdone : ∃ r con' s', ((.ok (), con₁, s₁) : Except Stop Unit × Console × Scheduler) =
            (r, con', s') ∧ Fired con s con' s' ∧ con'.Paced s' ∧ con'.unit = con.unit ∧
              s'.gtime = s.gtime := ⟨_, _, _, rfl, hfired, hp₁, hu₁, hg₁⟩
        rw [Scheduler.fireDue, KeyedQueue.pop, hp]
        dsimp only
        rw [hunits]
        dsimp only
        rcases Bool.eq_false_or_eq_true s₁.stopRequested with hstop | hstop
        · simp only [hstop, if_true]
          exact hdone
        · simp only [hstop, Bool.false_eq_true, if_false]
          cases hp₂ : s₁.queue.peek? with
          | none => exact hdone
          | some e₂ =>
            obtain ⟨v₂, next⟩ := e₂
            dsimp only
            split
            · next hnext =>
              -- the next unit is due by now, so it is not the console, due a character later
              have hhead : ∀ e, s₁.queue.peek? = some e → e.1 ≠ con₁.unit ∧ e.2.time ≤ s₁.time := by
                intro e he
                rw [hp₂, Option.some.injEq] at he
                subst he
                refine ⟨fun hv₂ => ?_, hnext⟩
                have hget := hp₁.single _ (KeyedQueue.mem_of_peek?_eq_some hp₂) hv₂
                rw [hu₁] at hget
                have hlt := hlater next hget
                have ht : s₁.time = s.time := by
                  rw [← Scheduler.gtime_eq_time_of_synced hs₁, hg₁,
                    Scheduler.gtime_eq_time_of_synced hs]
                omega
              obtain ⟨r, s', hfire, hp', hsched, hg⟩ := fireDue_head_other hp₁ hs₁ hhead fuel
              rw [hfire]
              exact ⟨r, con₁, s', rfl, hfired.of_schedule hsched, hp', hu₁, hg.trans hg₁⟩
            · exact hdone
      · -- another unit is due first and stops the loop
        obtain ⟨r, s', hfire, hp', hsched, hg⟩ := fireDue_head_other h hs
          (fun e he => by rw [hp, Option.some.injEq] at he; subst he; exact ⟨hv, hdue⟩) (fuel + 1)
        exact ⟨r, con, s', hfire, .none hsched, hp', rfl, hg⟩

/-- A scheduler with the same queue and clock paces the console the same. -/
theorem Paced.of_eq (s' : Scheduler) (h : con.Paced s) (hq : s'.queue = s.queue)
    (hg : s'.gtime = s.gtime) : con.Paced s' ∧ con.schedule s' = con.schedule s := by
  have ha : s'.isActive con.unit = s.isActive con.unit := by
    simp only [Scheduler.isActive_eq_isSome, hq]
  refine ⟨⟨ha ▸ h.queued, hq ▸ h.single, fun d hd => hg ▸ h.not_overdue d (hq ▸ hd)⟩, ?_⟩
  simp only [schedule, hq]

theorem Fired.of_eq {con' : Console} {s₁ s' : Scheduler} (h : Fired con s₁ con' s')
    (hq : s₁.queue = s.queue) (hg : s₁.gtime = s.gtime) : Fired con s con' s' := by
  have hsched : con.schedule s₁ = con.schedule s := by simp only [schedule, hq]
  cases h with
  | none h₁ => exact .none (h₁.trans hsched)
  | one h₁ h₂ => exact .one (hsched ▸ hg ▸ h₁) h₂

/-- What an event did at the console, with the console it leaves kept whole. -/
theorem Fired.handed {con' : Console} {s' : Scheduler} (h : Fired con s con' s') :
    (con' = con ∧ con.schedule s' = con.schedule s) ∨
      ∃ b, con'.emitted = con.emitted ++ [b] ∧ con.schedule s = (b, s.gtime) :: con'.schedule s' := by
  cases h with
  | none h₁ => exact .inl ⟨rfl, h₁⟩
  | one h₁ h₂ => exact .inr ⟨_, rfl, h₁.trans (by rw [h₂])⟩

/-- An event with the countdown run out: the console's unit fires at most once, handing over
its first character at the time the schedule gave it, and the clock stays. -/
theorem processEvent_units (h : con.Paced s) (hc : s.Clocked) (hi : s.interval ≤ 0)
    (hexp : con.unit ≠ Context.expectUnit) (hstep : con.unit ≠ Context.stepUnit) :
    ∃ r con' s', s.processEvent (Context.units Console.react) 0 con = (r, con', s') ∧
      Fired con s con' s' ∧ con'.Paced s' ∧ con'.unit = con.unit ∧ s'.gtime = s.gtime := by
  unfold Scheduler.processEvent
  rcases Bool.eq_false_or_eq_true s.stopRequested with hstop | hstop
  · -- a requested stop is reported, and nothing fires
    simp only [hstop, if_true]
    obtain ⟨hp, hsched⟩ := h.of_eq { s with stopRequested := false } rfl rfl
    exact ⟨_, con, _, rfl, .none hsched, hp, rfl, rfl⟩
  · simp only [hstop, Bool.false_eq_true, if_false]
    have hg₁ : s.updateTime.gtime = s.gtime := Scheduler.gtime_updateTime s
    obtain ⟨hp₁, -⟩ := h.of_eq s.updateTime rfl hg₁
    split
    · -- nothing is queued
      have hg₂ : s.updateTime.resetInterval.gtime = s.gtime := by
        rw [Scheduler.gtime_resetInterval, Scheduler.updateTime_time]
      obtain ⟨hp₂, hsched⟩ := h.of_eq s.updateTime.resetInterval rfl hg₂
      exact ⟨_, con, _, rfl, .none hsched, hp₂, rfl, hg₂⟩
    · -- the head is due by now, since the countdown has run out
      have hready : ∀ e, s.updateTime.queue.peek? = some e → e.2.time ≤ s.updateTime.time := by
        intro e he
        have hhead := hc.head e he
        rw [Scheduler.updateTime_time]
        omega
      obtain ⟨r, con', s', hfire, hfired, hp', hu, hg⟩ :=
        fireDue_units hp₁ (Scheduler.synced_updateTime s) hready hexp hstep (s.updateTime.queue.size + 0)
      exact ⟨r, con', s', hfire, hfired.of_eq rfl hg₁, hp', hu, hg.trans hg₁⟩


/-- Collecting the characters handed over leaves the pacing alone. -/
theorem Paced.collect (h : con.Paced s) (l : List UInt8) : ({ con with emitted := l } : Console).Paced s :=
  ⟨h.queued, h.single, h.not_overdue⟩

@[simp] theorem schedule_collect (l : List UInt8) :
    ({ con with emitted := l } : Console).schedule s = con.schedule s := rfl

/-- Checking a character against the console's expect rules leaves the console paced: it can
only queue the expect unit. -/
theorem Paced.expCheck {c : Context} (h : con.Paced c.sched) (hexp : con.unit ≠ Context.expectUnit)
    (line : Nat) (b : UInt8) :
    con.Paced (c.expCheck line b).sched ∧ con.schedule (c.expCheck line b).sched = con.schedule c.sched := by
  rcases Context.sched_expCheck c line b with hs | ⟨d, -, -, hs⟩
  · rw [hs]
    exact ⟨h, rfl⟩
  · rw [hs]
    exact h.activate_other hexp.symm d

/-- With nothing waiting, the unit is idle, and a write's first character is due a character
time from now. -/
theorem Paced.idle (h : con.Paced s) (hp : con.pending.isEmpty = true) :
    con.schedule s = [] ∧ con.resume s = s.gtime + characterTime := by
  have hd : s.queue.get? con.unit = none := h.get?_eq_none_iff.mpr ((Fifo.isEmpty_iff _).mp hp)
  simp only [schedule, resume, hd, and_self]

/-- Resetting drops the characters waiting and leaves the console idle and paced. -/
theorem reset_paced (con : Console) (s : Scheduler) :
    (con.reset s).1.Paced (con.reset s).2 ∧ (con.reset s).1.schedule (con.reset s).2 = [] := by
  have hnone : ∀ e ∈ (s.cancel con.unit).queue.entries, e.1 ≠ con.unit := by
    intro e he hu
    rw [Scheduler.queue_cancel, List.mem_filter] at he
    simp [hu] at he
  have hp := paced_requeue { con with pending := {} } hnone
  have hempty : ({ con with pending := {} } : Console).pending.isEmpty = true := rfl
  rw [if_pos hempty] at hp
  exact ⟨hp.1, hp.2.trans rfl⟩

end Console

/-! ## A slice of a run -/

namespace Machine

/-- The machine's console between slices: paced by its unit, nothing handed over left
uncollected, its unit none of the context's own, and the clock invariant holding. -/
structure Paced (m : Machine) (c : Context) : Prop where
  console : m.console.Paced c.sched
  collected : m.console.emitted = []
  not_expect : m.console.unit ≠ Context.expectUnit
  not_step : m.console.unit ≠ Context.stepUnit
  clocked : c.sched.Clocked

/-- What one slice does at the console. -/
inductive ConsoleStep (m : Machine) (c : Context) (out : Array UInt8) :
    Machine → Context → Array UInt8 → Prop
  /-- An instruction ran, or stopped before running: nothing goes out, and a TYPE that ran
  appends its text to the schedule. -/
  | execute {m' : Machine} {c' : Context} (typed : List UInt8) : 0 < c.sched.interval →
      (typed ≠ [] → m.instructionAt m.pc = some (.print typed)) →
      m'.console.schedule c'.sched =
        m.console.schedule c.sched ++ spaced (m.console.resume c.sched) typed →
      ConsoleStep m c out m' c' out
  /-- The console's unit fired: the first character waiting goes out at the time the schedule
  gave it, to the output and then to the console's expect rules. -/
  | emit {m' : Machine} {c' : Context} {b : UInt8} : c.sched.interval ≤ 0 →
      m.console.schedule c.sched = (b, c.gtime) :: m'.console.schedule c'.sched →
      c' = (c.processEvent Console.react 0 m.console).2.2.expCheck 0 b →
      ConsoleStep m c out m' c' (out.push b)
  /-- An event in which the console's unit did not fire: nothing goes out. -/
  | quiet {m' : Machine} {c' : Context} : c.sched.interval ≤ 0 → m'.console = m.console →
      m'.console.schedule c'.sched = m.console.schedule c.sched → ConsoleStep m c out m' c' out

variable {m : Machine} {c : Context}

/-- An effect types its text to the console, or leaves the console and the scheduler alone. -/
theorem Effect.console {m' : Machine} {c' : Context} {i : Instruction} (h : Effect m c i m' c') :
    (∃ text, i = .print text ∧ m'.console = (m.console.write c.sched text).1 ∧
      c'.sched = (m.console.write c.sched text).2) ∨
    (m'.console = m.console ∧ c'.sched = c.sched) := by
  cases h with
  | print text hw => exact .inl ⟨text, rfl, by rw [hw], by rw [hw]⟩
  | read b hp =>
    have hs := Context.sched_sendPoll c 0
    rw [hp] at hs
    exact .inr ⟨rfl, hs⟩
  | wait hp =>
    have hs := Context.sched_sendPoll c 0
    rw [hp] at hs
    exact .inr ⟨rfl, hs⟩
  | _ => exact .inr ⟨rfl, rfl⟩

/-- An instruction that leaves the console alone, with at most its instruction time passing,
keeps the machine paced and its schedule. -/
theorem Paced.keep {m' : Machine} {c' : Context} (h : m.Paced c) (hi : 0 < c.sched.interval)
    (hm : m'.console = m.console) (hs : c'.sched = c.sched ∨ c'.sched = c.sched.consume 1)
    (out : Array UInt8) : m'.Paced c' ∧ ConsoleStep m c out m' c' out := by
  have hkeep : m.console.Paced c'.sched ∧ m.console.schedule c'.sched = m.console.schedule c.sched := by
    rcases hs with hs | hs
    · rw [hs]
      exact ⟨h.console, rfl⟩
    · rw [hs]
      exact h.console.consume_one h.clocked hi
  have hc : c'.sched.Clocked := by
    rcases hs with hs | hs
    · exact hs ▸ h.clocked
    · exact hs ▸ h.clocked.consume (by decide)
  refine ⟨⟨?_, ?_, ?_, ?_, hc⟩, .execute [] hi (fun hne => absurd rfl hne) ?_⟩ <;> rw [hm]
  · exact hkeep.1
  · exact h.collected
  · exact h.not_expect
  · exact h.not_step
  · rw [hkeep.2, spaced, List.append_nil]

/-- A TYPE that completes appends its text to the schedule, after what already waits. -/
theorem Paced.print {m' : Machine} {c' : Context} (h : m.Paced c) (hi : 0 < c.sched.interval)
    (text : List UInt8) (hm : m'.console = (m.console.write c.sched text).1)
    (hs : c'.sched = (m.console.write c.sched text).2.consume 1) :
    m'.Paced c' ∧
      m'.console.schedule c'.sched = m.console.schedule c.sched ++ spaced (m.console.resume c.sched) text := by
  obtain ⟨hw, hsched⟩ := h.console.write text
  obtain ⟨hcx, hix, -⟩ := ready_of_write h.clocked hi (Console.sched_write m.console c.sched text)
  obtain ⟨hcons, hsched'⟩ := hw.consume_one hcx hix
  refine ⟨⟨?_, ?_, ?_, ?_, ?_⟩, ?_⟩
  · rw [hm, hs]
    exact hcons
  · rw [hm]
    exact h.collected
  · rw [hm]
    exact h.not_expect
  · rw [hm]
    exact h.not_step
  · rw [hs]
    exact hcx.consume (by decide)
  · rw [hm, hs]
    exact hsched'.trans hsched

/-- Executing from a paced machine: only a TYPE that completes changes what the console has to
hand over, by appending its text. -/
theorem Paced.executed (h : m.Paced c) (hi : 0 < c.sched.interval)
    {x : Except Stop Unit × Machine × Context} (hx : Executed m c x) (out : Array UInt8) :
    x.2.1.Paced x.2.2 ∧ ConsoleStep m c out x.2.1 x.2.2 out := by
  cases hx with
  | @completed i c₁ c₂ m' hq hinst heff =>
    rcases heff.console with ⟨text, rfl, hm, hs⟩ | ⟨hm, hs⟩
    · rw [hq.sched_eq] at hm hs
      have hs' : ({ c₂ with sched := c₂.sched.consume 1 } : Context).sched =
          (m.console.write c.sched text).2.consume 1 := by rw [← hs]
      obtain ⟨hp, hsched⟩ := h.print hi text hm hs'
      exact ⟨hp, .execute text hi (fun _ => hinst) hsched⟩
    · exact h.keep hi hm (.inr (by rw [← hq.sched_eq, ← hs])) out
  | halted hq _ => exact h.keep hi (by rfl) (.inr (by rw [← hq.sched_eq])) out
  | breakpoint hq => exact h.keep hi (by rfl) (.inl hq.sched_eq) out
  | device hs => exact h.keep hi (by rfl) (.inl hs) out

/-- An event from a paced machine: the console's unit fires at most once, and the character it
hands over goes to the output and to the console's expect rules. -/
theorem Paced.event (h : m.Paced c) (hi : c.sched.interval ≤ 0) (out : Array UInt8) :
    (m.runSlice c out).2.1.Paced (m.runSlice c out).2.2.1 ∧
      ConsoleStep m c out (m.runSlice c out).2.1 (m.runSlice c out).2.2.1 (m.runSlice c out).2.2.2 := by
  obtain ⟨r, con', s', hev, hfired, hp', hu, -⟩ :=
    Console.processEvent_units h.console h.clocked hi h.not_expect h.not_step
  have hctx : c.processEvent Console.react 0 m.console = (r, con', { c with sched := s' }) := by
    unfold Context.processEvent
    rw [hev]
  have hc' : s'.Clocked := by
    have hc := h.clocked.processEvent confined_units 0 m.console
    rwa [hev] at hc
  unfold runSlice
  rw [if_pos hi, hctx]
  dsimp only
  rcases hfired.handed with ⟨rfl, hsched⟩ | ⟨b, hem, hhead⟩
  · -- nothing went out, and the machine is as it was
    have hcon : ({ m.console with emitted := [] } : Console) = m.console := by rw [← h.collected]
    simp only [h.collected, List.foldl_nil, Array.append_empty, hcon]
    exact ⟨⟨hp', h.collected, h.not_expect, h.not_step, hc'⟩, .quiet hi rfl hsched⟩
  · -- the one character handed over goes out, then through the expect rules
    rw [h.collected, List.nil_append] at hem
    simp only [hem, List.foldl_cons, List.foldl_nil, Array.append_singleton]
    have hexp : ({ con' with emitted := [] } : Console).unit ≠ Context.expectUnit := by
      rw [hu]
      exact h.not_expect
    have hstep : ({ con' with emitted := [] } : Console).unit ≠ Context.stepUnit := by
      rw [hu]
      exact h.not_step
    obtain ⟨hpx, hschedx⟩ := (hp'.collect []).expCheck (c := { c with sched := s' }) hexp 0 b
    refine ⟨⟨hpx, rfl, hexp, hstep, ?_⟩, .emit hi ?_ (by rw [hctx])⟩
    · have hcx := (clocked_foldl_expCheck [b] (c := { c with sched := s' }) hc').1
      simpa only [List.foldl_cons, List.foldl_nil] using hcx
    · show m.console.schedule c.sched = (b, c.gtime) ::
        ({ con' with emitted := [] } : Console).schedule (({ c with sched := s' } : Context).expCheck 0 b).sched
      rw [hschedx]
      exact hhead

/-- Every slice from a paced machine leaves it paced, and does at the console what
`ConsoleStep` lists. -/
theorem Paced.runSlice (h : m.Paced c) (out : Array UInt8) :
    (m.runSlice c out).2.1.Paced (m.runSlice c out).2.2.1 ∧
      ConsoleStep m c out (m.runSlice c out).2.1 (m.runSlice c out).2.2.1 (m.runSlice c out).2.2.2 := by
  by_cases hi : c.sched.interval ≤ 0
  · exact h.event hi out
  · have hslice : m.runSlice c out = ((m.execute c).1, (m.execute c).2.1, (m.execute c).2.2, out) := by
      unfold Machine.runSlice
      rw [if_neg hi]
    rw [hslice]
    exact h.executed (by omega) (executed_execute m c) out

/-- One slice from a paced machine, as the console sees it. -/
def Slice (x y : Machine × Context × Array UInt8) : Prop :=
  x.1.Paced x.2.1 ∧ ConsoleStep x.1 x.2.1 x.2.2 y.1 y.2.1 y.2.2

/-- A run from a paced machine is a chain of slices, and leaves the machine paced. -/
theorem Paced.run_slices (h : m.Paced c) (fuel : Nat) (out : Array UInt8) :
    Relation.ReflTransGen Slice (m, c, out) (m.run fuel c out).2 ∧
      (m.run fuel c out).2.1.Paced (m.run fuel c out).2.2.1 := by
  induction fuel generalizing m c out with
  | zero => exact ⟨.refl, h⟩
  | succ fuel ih =>
    have hs := h.runSlice out
    rw [run]
    rcases hr : m.runSlice c out with ⟨r, m', c', out'⟩
    rw [hr] at hs
    cases r with
    | error stop => exact ⟨.single ⟨h, hs.2⟩, hs.1⟩
    | ok u =>
      obtain ⟨hrun, hp⟩ := ih hs.1 out'
      exact ⟨.head ⟨h, hs.2⟩ hrun, hp⟩

/-- The output so far, followed by the characters the console has still to hand over. -/
def stream (x : Machine × Context × Array UInt8) : List UInt8 :=
  x.2.2.toList ++ (x.1.console.schedule x.2.1.sched).map Prod.fst

/-- A slice only adds to the end of the stream: a TYPE appends its text, and a character
handed over moves from the schedule to the output. -/
theorem Slice.stream_prefix {x y : Machine × Context × Array UInt8} (h : Slice x y) :
    stream x <+: stream y := by
  obtain ⟨m, c, out⟩ := x
  obtain ⟨m', c', out'⟩ := y
  obtain ⟨-, hstep⟩ := h
  cases hstep with
  | execute typed _ _ hsched => exact ⟨typed, by simp [stream, hsched]⟩
  | emit _ hhead _ => simp [stream, hhead]
  | quiet _ _ hsched => simp [stream, hsched]

theorem stream_prefix_of_slices {x y : Machine × Context × Array UInt8}
    (h : Relation.ReflTransGen Slice x y) : stream x <+: stream y := by
  induction h with
  | refl => exact List.prefix_refl _
  | tail _ hs ih => exact ih.trans hs.stream_prefix

/-- Loading a program leaves the console alone. -/
theorem Paced.load (h : m.Paced c) (program : List Instruction) : (m.load program).Paced c :=
  ⟨h.console, h.collected, h.not_expect, h.not_step, h.clocked⟩

/-- A reset drops the characters waiting and leaves the machine paced. -/
theorem Paced.reset (h : m.Paced c) (start : Address) :
    (m.reset c start).1.Paced (m.reset c start).2 ∧
      (m.reset c start).1.console.schedule (m.reset c start).2.sched = [] := by
  obtain ⟨hp, hsched⟩ := Console.reset_paced m.console c.sched
  exact ⟨⟨hp, h.collected, h.not_expect, h.not_step, h.clocked.cancel _⟩, hsched⟩

/-- A new machine is paced, on a scheduler with nothing queued that already holds the
context's two units. -/
theorem paced_new {c : Context} (hc : c.sched.Clocked) (hq : c.sched.queue.entries = [])
    (hn : 2 ≤ c.sched.names.length) : (Machine.new c).1.Paced (Machine.new c).2 := by
  have hnone : ∀ e ∈ (Machine.new c).2.sched.queue.entries, e.1 ≠ (Machine.new c).1.console.unit := by
    intro e he
    rw [show (Machine.new c).2.sched.queue.entries = [] from hq] at he
    cases he
  have hp := Console.paced_requeue (Machine.new c).1.console hnone
  have hempty : (Machine.new c).1.console.pending.isEmpty = true := rfl
  rw [if_pos hempty] at hp
  have hunit : (Machine.new c).1.console.unit = ⟨c.sched.names.length⟩ := rfl
  refine ⟨hp.1, rfl, ?_, ?_, hc.of_eq rfl rfl rfl rfl⟩
  · rw [hunit, Context.expectUnit, Ne, UnitId.mk.injEq]
    omega
  · rw [hunit, Context.stepUnit, Ne, UnitId.mk.injEq]
    omega

/-- The console over any run of a paced machine. Between slices its unit is queued exactly
while characters wait (`Paced`); each slice does what `ConsoleStep` lists, so the output
followed by the characters waiting only grows at its end: a TYPE appends its text, and each
firing of the unit moves the first character waiting to the output, at the time the schedule
gave it, and through the console's expect rules. A write to an idle console is due a character
time on, and a reset drops what waits. -/
theorem console_output_paced (h : m.Paced c) :
    (∀ fuel out, Relation.ReflTransGen Slice (m, c, out) (m.run fuel c out).2 ∧
      (m.run fuel c out).2.1.Paced (m.run fuel c out).2.2.1 ∧
      stream (m, c, out) <+: stream (m.run fuel c out).2) ∧
    (m.console.pending.isEmpty = true →
      m.console.schedule c.sched = [] ∧ m.console.resume c.sched = c.gtime + characterTime) ∧
    ∀ start, (m.reset c start).1.Paced (m.reset c start).2 ∧
      (m.reset c start).1.console.schedule (m.reset c start).2.sched = [] := by
  refine ⟨fun fuel out => ?_, h.console.idle, h.reset⟩
  obtain ⟨hrun, hp⟩ := h.run_slices fuel out
  exact ⟨hrun, hp, stream_prefix_of_slices hrun⟩

/-- A new machine whose program types "hi" and halts. -/
theorem console_output_paced_of_new :
    let c₀ := Context.new {} breakTypeTable
    let m := (Machine.new c₀).1.load [.print [104, 105], .halt]
    let c := (Machine.new c₀).2
    m.Paced c ∧ ∀ fuel out, (m.run fuel c out).2.1.Paced (m.run fuel c out).2.2.1 ∧
      stream (m, c, out) <+: stream (m.run fuel c out).2 := by
  intro c₀ m c
  have hc : c₀.sched.Clocked := (Scheduler.clocked_new {} (by decide) (by decide)).of_eq rfl rfl rfl rfl
  have hp : m.Paced c := (paced_new hc rfl (by decide)).load _
  exact ⟨hp, fun fuel out => ((console_output_paced hp).1 fuel out).2⟩

end Machine

end SimControl.Bench
