import SimControl.Proofs.InstructionEffect
import SimControl.Session
import Mathlib.Data.List.TakeWhile
/-!
# STEP stops on its count

STEP `n` queues the step unit `min n maxDelay` instruction times from now and runs the machine.
While the unit waits for its time `D`, every slice keeps it waiting: an instruction takes one
instruction time only while time is left on the countdown, and the countdown never runs past
the head of the queue, which is due no later than `D`; an event takes the units due first, each
due no later than `D`. So the run stops by `D`, and when the step unit is the one that stops it,
the clock stands at `D` exactly. The count is cancelled after the run, whatever stopped it.

* `Scheduler.Awaits`: a unit queued for a time the clock and the countdown have not passed,
  with what each call, an instruction time and taking the head do to it.
* `StepBounded`: how a stretch of a run ends with the step count waiting, carried through the
  event loop, a slice and a whole run (`stepBounded_run`).
* `step_stops_within_count`: the STEP command.
-/

namespace SimControl

/-- A queue with an entry has a head, due no later than that entry. -/
theorem KeyedQueue.exists_peek?_of_mem {q : KeyedQueue UnitId Due} {e : UnitId × Due}
    (he : e ∈ q.entries) : ∃ m, q.peek? = some m ∧ m.2.time ≤ e.2.time := by
  cases hp : q.peek? with
  | none =>
    rw [q.peek?_eq_argmin_key, List.argmin_eq_none] at hp
    rw [hp] at he
    cases he
  | some m => exact ⟨m, rfl, KeyedQueue.peek?_time_le hp he⟩

namespace Scheduler

variable {s : Scheduler} {u : UnitId} {D : Int}

/-- Cancelling a unit leaves none of its entries. -/
theorem isActive_cancel_self (s : Scheduler) (u : UnitId) : (s.cancel u).isActive u = false := by
  apply KeyedQueue.contains_eq_false_iff.mpr
  intro e he
  rw [queue_cancel, List.mem_filter] at he
  simpa using he.2

/-- A unit waits for `D`: it is queued, every entry it has is due at `D`, the countdown was last
set to run out no later than `D`, and the clock has not passed `D`. -/
structure Awaits (s : Scheduler) (u : UnitId) (D : Int) : Prop where
  queued : ∃ e ∈ s.queue.entries, e.1 = u
  due : ∀ e ∈ s.queue.entries, e.1 = u → e.2.time = D
  target_le : s.time + s.baseInterval ≤ D
  gtime_le : s.gtime ≤ D

theorem Awaits.isActive (h : s.Awaits u D) : s.isActive u = true := by
  obtain ⟨e, he, hu⟩ := h.queued
  rw [isActive_eq_any, List.any_eq_true]
  exact ⟨e, he, by simp [hu]⟩

/-- The head of the queue is due no later than the waiting unit. -/
theorem Awaits.head_le (h : s.Awaits u D) {e : UnitId × Due} (hp : s.queue.peek? = some e) :
    e.2.time ≤ D := by
  obtain ⟨x, hx, hu⟩ := h.queued
  rw [← h.due x hx hu]
  exact KeyedQueue.peek?_time_le hp hx

/-- While time is left on the countdown, the clock is short of `D`. -/
theorem Awaits.gtime_lt (h : s.Awaits u D) (hi : 0 < s.interval) : s.gtime < D := by
  have := h.target_le
  unfold gtime
  omega

/-- Setting the countdown at a time no later than `D`, with the unit queued for `D`: the head is
due no later than `D`, so the countdown runs out by then. -/
theorem awaits_resetInterval {x : Scheduler} (hq : ∃ e ∈ x.queue.entries, e.1 = u)
    (hd : ∀ e ∈ x.queue.entries, e.1 = u → e.2.time = D) (ht : x.time ≤ D) :
    x.resetInterval.Awaits u D := by
  refine ⟨hq, hd, ?_, by rw [gtime_resetInterval]; exact ht⟩
  obtain ⟨y, hy, hu⟩ := hq
  obtain ⟨⟨v, due⟩, hp, hle⟩ := KeyedQueue.exists_peek?_of_mem hy
  replace hle : due.time ≤ D := hd y hy hu ▸ hle
  rw [resetInterval_time, synced_resetInterval x, resetInterval_interval, hp]
  show x.time + clampDelay (due.time - x.time) ≤ D
  simp only [clampDelay, minDelay, maxDelay]
  omega

/-! ## What keeps the wait -/

theorem Awaits.updateTime (h : s.Awaits u D) : s.updateTime.Awaits u D where
  queued := h.queued
  due := h.due
  target_le := by
    have := h.target_le
    show s.time + s.baseInterval - s.interval + s.interval ≤ D
    omega
  gtime_le := by
    rw [gtime_updateTime]
    exact h.gtime_le

/-- Activating any unit keeps the wait: a queued unit keeps its time, and a new entry can only
bring the countdown's end earlier. -/
theorem Awaits.activate (h : s.Awaits u D) (v : UnitId) (d : Int) : (s.activate v d).Awaits u D := by
  cases ha : s.isActive v
  · have hvu : v ≠ u := by
      rintro rfl
      rw [h.isActive] at ha
      cases ha
    rw [activate_of_not_isActive ha]
    refine awaits_resetInterval ?_ ?_ h.gtime_le
    · obtain ⟨e, he, hu⟩ := h.queued
      exact ⟨e, List.mem_append_left _ he, hu⟩
    · intro e he hu
      rcases List.mem_append.mp he with he | he
      · exact h.due e he hu
      · rw [List.mem_singleton] at he
        subst he
        exact absurd hu hvu
  · rw [activate_of_isActive ha]
    exact h

/-- Cancelling another unit keeps the wait. -/
theorem Awaits.cancel (h : s.Awaits u D) {v : UnitId} (hvu : v ≠ u) : (s.cancel v).Awaits u D := by
  cases ha : s.isActive v
  · rw [cancel_of_not_isActive ha]
    exact h
  · rw [cancel_of_isActive ha]
    refine awaits_resetInterval ?_ ?_ h.gtime_le
    · obtain ⟨e, he, hu⟩ := h.queued
      exact ⟨e, List.mem_filter.mpr ⟨he, by simp [hu, Ne.symm hvu]⟩, hu⟩
    · intro e he hu
      exact h.due e (List.mem_filter.mp he).1 hu

/-- An instruction time with the clock short of `D` keeps the wait: the countdown saturates at
its lower limit, so the clock moves by one at most past the countdown's end. -/
theorem Awaits.consume_one (h : s.Awaits u D) (hlt : s.gtime < D) : (s.consume 1).Awaits u D where
  queued := h.queued
  due := h.due
  target_le := h.target_le
  gtime_le := by
    have := h.target_le
    simp only [gtime, consume, clampDelay, minDelay, maxDelay] at hlt ⊢
    omega

/-- Taking another unit off the head keeps the wait: the head was due no later than `D`, so
the clock moves up to it and no further. -/
theorem Awaits.take (h : s.Awaits u D) (hs : s.Synced) {v : UnitId} {due : Due}
    (hp : s.queue.peek? = some (v, due)) (hvu : v ≠ u) :
    (resetInterval { s with queue := (s.queue.erase v).2, time := max s.time due.time }).Awaits
      u D := by
  have htime : s.time ≤ D := gtime_eq_time_of_synced hs ▸ h.gtime_le
  refine awaits_resetInterval ?_ ?_ (max_le htime (h.head_le hp))
  · obtain ⟨e, he, hu⟩ := h.queued
    exact ⟨e, List.mem_filter.mpr ⟨he, by simp [hu, Ne.symm hvu]⟩, hu⟩
  · intro e he hu
    exact h.due e (List.mem_filter.mp he).1 hu

/-- Taking the waiting unit itself off the head moves the clock to `D` exactly. -/
theorem Awaits.gtime_take_self (h : s.Awaits u D) (hs : s.Synced) {due : Due}
    (hp : s.queue.peek? = some (u, due)) :
    (resetInterval { s with queue := (s.queue.erase u).2, time := max s.time due.time }).gtime =
      D := by
  have htime : s.time ≤ D := gtime_eq_time_of_synced hs ▸ h.gtime_le
  have hdue : due.time = D := h.due _ (KeyedQueue.mem_of_peek?_eq_some hp) rfl
  rw [gtime_resetInterval]
  show max s.time due.time = D
  omega

end Scheduler

namespace Context

@[simp] theorem gtime_cancelStep (c : Context) : c.cancelStep.gtime = c.gtime :=
  Scheduler.gtime_cancel c.sched stepUnit

/-- A count of `n ≥ 0` instruction times waits for the clock plus `n`, whatever was queued
before: an earlier count is cancelled first. -/
theorem awaits_step (c : Context) {n : Int} (hn : 0 ≤ n) :
    (c.step n).sched.Awaits stepUnit (c.gtime + n) := by
  have hidle := Scheduler.isActive_cancel_self c.sched stepUnit
  show ((c.sched.cancel stepUnit).activate stepUnit n).Awaits stepUnit (c.gtime + n)
  rw [Scheduler.activate_of_not_isActive hidle]
  refine Scheduler.awaits_resetInterval
    ⟨_, List.mem_append_right _ (List.mem_singleton_self _), rfl⟩ ?_ ?_
  · intro e he hu
    rcases List.mem_append.mp he with he | he
    · exact absurd hu (KeyedQueue.contains_eq_false_iff.mp hidle e he)
    · rw [List.mem_singleton] at he
      subst he
      show (c.sched.cancel stepUnit).gtime + n = c.sched.gtime + n
      rw [Scheduler.gtime_cancel]
  · show (c.sched.cancel stepUnit).gtime ≤ c.sched.gtime + n
    rw [Scheduler.gtime_cancel]
    omega

theorem units_stepUnit {σ : Type} (machine : Scheduler.Reaction σ) (st : σ) (s : Scheduler) :
    units machine stepUnit st s = (.error .stepExpired, st, s) := by
  unfold units
  rw [if_neg (by decide), if_pos rfl]

end Context

namespace Bench.Machine

open Scheduler

/-- Every unit but the step unit leaves the scheduler alone or queues the console, and never
reports the count run out. -/
theorem units_of_ne_stepUnit {u : UnitId} (hu : u ≠ Context.stepUnit) (con : Console)
    (s : Scheduler) :
    (Context.units Console.react u con s).1 ≠ .error .stepExpired ∧
      ((Context.units Console.react u con s).2.2 = s ∨
        ∃ v, (Context.units Console.react u con s).2.2 = s.activate v characterTime) := by
  unfold Context.units
  by_cases he : u = Context.expectUnit
  · rw [if_pos he]
    exact ⟨by simp, .inl rfl⟩
  · rw [if_neg he, if_neg hu]
    unfold Console.react
    split
    · exact ⟨by simp, .inl rfl⟩
    · dsimp only
      refine ⟨by simp, ?_⟩
      -- a character handed over or not, the console is queued again while more wait
      split <;> split
      · exact .inl rfl
      · exact .inr ⟨_, rfl⟩
      · exact .inl rfl
      · exact .inr ⟨_, rfl⟩

/-- An effect keeps a wait and the clock. -/
theorem Effect.awaits {m m' : Machine} {c c' : Context} {i : Instruction} (he : Effect m c i m' c')
    {u : UnitId} {D : Int} (h : c.sched.Awaits u D) : c'.sched.Awaits u D ∧ c'.gtime = c.gtime := by
  rcases he.sched with hs | ⟨v, hs⟩
  · exact ⟨hs ▸ h, congrArg Scheduler.gtime hs⟩
  · rw [Context.gtime, Context.gtime, hs, gtime_activate]
    exact ⟨h.activate v characterTime, rfl⟩

/-- How a stretch of a run ends, seen from a step count that runs out at `D`: still running
with the count waiting, or stopped by `D`, and at `D` exactly if the count ran out. -/
def StepBounded (D : Int) : Except Stop Unit → Scheduler → Prop
  | .ok _, s => s.Awaits Context.stepUnit D
  | .error stop, s => s.gtime ≤ D ∧ (stop = .stepExpired → s.gtime = D)

variable {D : Int}

theorem StepBounded.activate {r : Except Stop Unit} {s : Scheduler} (h : StepBounded D r s)
    (v : UnitId) (d : Int) : StepBounded D r (s.activate v d) := by
  cases r with
  | ok _ => exact Awaits.activate h v d
  | error stop =>
    rw [StepBounded, gtime_activate]
    exact h

/-- A stop other than the count's, with the clock by `D`. -/
theorem stepBounded_of_ne {stop : Stop} {s : Scheduler} (hne : stop ≠ .stepExpired)
    (hle : s.gtime ≤ D) : StepBounded D (.error stop) s :=
  ⟨hle, fun h => absurd h hne⟩

/-- The event loop with the step count waiting for `D`: each head taken is due no later than
`D`, so the loop ends with the count still waiting, or stops by `D`; the step unit stops it at
`D` exactly. -/
theorem stepBounded_fireDue : ∀ (fuel : Nat) (con : Console) (s : Scheduler),
    s.Awaits Context.stepUnit D → s.Synced →
    StepBounded D (fireDue (Context.units Console.react) fuel con s).1
      (fireDue (Context.units Console.react) fuel con s).2.2 := by
  intro fuel
  induction fuel with
  | zero => exact fun _ _ h _ => h
  | succ fuel ih =>
    intro con s h hs
    rw [fireDue, KeyedQueue.pop]
    cases hp : s.queue.peek? with
    | none => exact h
    | some e =>
      obtain ⟨v, due⟩ := e
      dsimp only
      by_cases hv : v = Context.stepUnit
      · -- the step unit is due first: the clock is at `D`, and the unit stops the run
        subst hv
        rw [Context.units_stepUnit]
        have hg := h.gtime_take_self hs hp
        exact ⟨hg.le, fun _ => hg⟩
      · have h₁ := h.take hs hp hv
        obtain ⟨hne, hsched⟩ := units_of_ne_stepUnit hv con
          (resetInterval { s with queue := (s.queue.erase v).2, time := max s.time due.time })
        rcases hre : Context.units Console.react v con
            (resetInterval { s with queue := (s.queue.erase v).2, time := max s.time due.time })
          with ⟨r, con', s'⟩
        rw [hre] at hne hsched
        dsimp only at hne hsched
        -- the unit at most queued the console, which keeps the wait and the countdown in step
        have h₂ : s'.Awaits Context.stepUnit D ∧ s'.Synced := by
          rcases hsched with rfl | ⟨w, rfl⟩
          · exact ⟨h₁, synced_resetInterval _⟩
          · exact ⟨h₁.activate w characterTime, (synced_resetInterval _).activate w characterTime⟩
        cases r with
        | error stop => exact stepBounded_of_ne (fun h => hne (congrArg Except.error h)) h₂.1.gtime_le
        | ok _ =>
          dsimp only
          split
          · exact h₂.1
          · split
            · split
              · exact ih con' s' h₂.1 h₂.2
              · exact h₂.1
            · exact h₂.1

/-- An event with the step count waiting: a requested stop keeps the clock, and otherwise the
queue holds the step unit, so the loop runs. -/
theorem stepBounded_processEvent {c : Context} (h : c.sched.Awaits Context.stepUnit D)
    (con : Console) :
    StepBounded D (c.processEvent Console.react 0 con).1
      (c.processEvent Console.react 0 con).2.2.sched := by
  rw [Context.sched_processEvent]
  show StepBounded D (c.sched.processEvent (Context.units Console.react) 0 con).1 _
  unfold Scheduler.processEvent
  split
  · exact stepBounded_of_ne (by decide) h.gtime_le
  · dsimp only
    split
    · next hempty =>
      obtain ⟨e, he, -⟩ := h.queued
      rw [updateTime_queue, KeyedQueue.isEmpty, List.isEmpty_iff] at hempty
      rw [hempty] at he
      cases he
    · exact stepBounded_fireDue _ con _ h.updateTime (synced_updateTime _)

theorem stepBounded_foldl_expCheck (bytes : List UInt8) {r : Except Stop Unit} {c : Context}
    (h : StepBounded D r c.sched) :
    StepBounded D r (bytes.foldl (fun c b => c.expCheck 0 b) c).sched := by
  induction bytes generalizing c with
  | nil => exact h
  | cons b bytes ih =>
    rw [List.foldl_cons]
    apply ih
    rcases Context.sched_expCheck c 0 b with hs | ⟨d, -, -, hs⟩
    · rw [hs]
      exact h
    · rw [hs]
      exact h.activate _ d

/-- An execution with time left on the countdown: an instruction that ran takes its one
instruction time with the clock short of `D`; a stop before it leaves the scheduler alone. -/
theorem stepBounded_execute {m : Machine} {c : Context} (h : c.sched.Awaits Context.stepUnit D)
    (hi : 0 < c.sched.interval) : StepBounded D (m.execute c).1 (m.execute c).2.2.sched := by
  have hlt := h.gtime_lt hi
  have hd := executed_execute m c
  rcases hx : m.execute c with ⟨r, m', c'⟩
  rw [hx] at hd
  cases hd with
  | completed hp _ he =>
    obtain ⟨h₂, hg⟩ := he.awaits (hp.sched_eq ▸ h)
    refine h₂.consume_one ?_
    show Context.gtime _ < D
    rw [hg, Context.gtime, hp.sched_eq]
    exact hlt
  | halted hp _ =>
    exact stepBounded_of_ne (by intro h; cases h)
      ((hp.sched_eq ▸ h).consume_one (hp.sched_eq ▸ hlt)).gtime_le
  | breakpoint hp => exact stepBounded_of_ne (by intro h; cases h) (hp.sched_eq ▸ h.gtime_le)
  | device hs => exact stepBounded_of_ne (by intro h; cases h) (hs ▸ h.gtime_le)

theorem stepBounded_runSlice {m : Machine} {c : Context} (h : c.sched.Awaits Context.stepUnit D)
    (out : Array UInt8) : StepBounded D (m.runSlice c out).1 (m.runSlice c out).2.2.1.sched := by
  unfold runSlice
  split
  · -- the due units fire, then the console's characters go through the expect rules
    have hp := stepBounded_processEvent h m.console
    rcases hpe : c.processEvent Console.react 0 m.console with ⟨status, con, c₁⟩
    rw [hpe] at hp
    exact stepBounded_foldl_expCheck con.emitted hp
  · next hi =>
    have hx := stepBounded_execute (m := m) h (by omega)
    rcases hr : m.execute c with ⟨r, m', c'⟩
    rw [hr] at hx
    exact hx

/-- A run with the step count waiting for `D` stops by `D`, and at `D` exactly if the count
ran out; running out of slices is an operator's stop. -/
theorem stepBounded_run (fuel : Nat) {m : Machine} {c : Context}
    (h : c.sched.Awaits Context.stepUnit D) (out : Array UInt8) :
    StepBounded D (.error (m.run fuel c out).1) (m.run fuel c out).2.2.1.sched := by
  induction fuel generalizing m c out with
  | zero => exact stepBounded_of_ne (show Stop.userStop ≠ .stepExpired from nofun) h.gtime_le
  | succ fuel ih =>
    have hs := stepBounded_runSlice (m := m) h out
    rw [run]
    rcases hr : m.runSlice c out with ⟨r, m', c', out'⟩
    rw [hr] at hs
    cases r with
    | error stop => exact hs
    | ok _ => exact ih hs out'

end Bench.Machine

/-- A line that is one word and nothing else scans as that word. -/
theorem Command.scan_word_alone {w : String} {c : Char} {cs : List Char} (hw : w.toList = c :: cs)
    (hc : Command.isWordChar c = true) (hcs : cs.all Command.isWordChar = true)
    (hword : Command.classifyWord (c :: cs) = some (.word w)) :
    Command.scan w = [⟨.token (.word w), 0, cs.length + 1⟩] := by
  simp only [Command.isWordChar, Bool.not_eq_true', Bool.or_eq_false_iff, decide_eq_false_iff_not]
    at hc
  obtain ⟨⟨⟨⟨⟨hgap, hsemi⟩, hcomma⟩, hdq⟩, hsq⟩, hbr⟩ := hc
  have hrun : cs.takeWhile Command.isWordChar = cs := List.takeWhile_eq_self_iff.mpr (List.all_eq_true.mp hcs)
  rw [Command.scan, hw, Command.scanFrom]
  simp only [hgap, Bool.false_eq_true, if_false, Command.scanAt, if_neg hsemi, if_neg hcomma,
    if_neg (not_or.mpr ⟨hdq, hsq⟩), if_neg hbr, hrun, List.take_length, List.drop_length, hword,
    Nat.zero_add]
  -- the word takes the whole line, and nothing is left to scan
  rw [Command.scanFrom]

/-- STEP with no count steps once. -/
theorem Command.parse_step_alone : Command.parse "STEP" = .ok (.step 1) := by
  have hscan : Command.scan "STEP" = [⟨.token (.word "STEP"), 0, 4⟩] :=
    Command.scan_word_alone (show "STEP".toList = ['S', 'T', 'E', 'P'] from rfl) rfl rfl
      (by decide)
  have hhash : "STEP".startsWith "#" = false := by simp
  rw [Command.parse, hscan]
  simp only [hhash, Bool.false_eq_true, if_false,
    show Command.lookup "STEP" commandWords = .ok .step from rfl, bind, Except.bind,
    Command.readArguments]
  rfl

namespace Session

open Bench.Machine

/-- A STEP line sets the count, runs the machine, cancels the count and reports the stop. -/
theorem run_command_step {line : String} {n : Nat} (hp : Command.parse line = .ok (.step n))
    (s : Session) :
    let o := s.machine.run sliceBudget (s.ctx.step (min (n : Int) maxDelay)) s.out
    (command line).run s =
      (reportStop o.1).run { s with machine := o.2.1, ctx := o.2.2.1.cancelStep, out := o.2.2.2 } := by
  rw [command, show workBudget = 16777215 + 1 from rfl, execute, EStateM.run_bind, hp]
  rfl

/-- STEP `n` from any state reports its stop with the count no longer queued: either the count
ran out, with the clock advanced by exactly `min n maxDelay` instruction times, or something
else stopped the machine no later than that. -/
theorem step_stops_within_count {line : String} {n : Nat}
    (hp : Command.parse line = .ok (.step n)) (s : Session) :
    ∃ stop s₁, (command line).run s = (reportStop stop).run s₁ ∧
      s₁.ctx.sched.isActive Context.stepUnit = false ∧
      ((stop = .stepExpired ∧ s₁.ctx.gtime = s.ctx.gtime + min (n : Int) maxDelay) ∨
        (stop ≠ .stepExpired ∧ s₁.ctx.gtime ≤ s.ctx.gtime + min (n : Int) maxDelay)) := by
  have hm : (0 : Int) ≤ min (n : Int) maxDelay := le_min (Int.natCast_nonneg n) (by decide)
  have hb := stepBounded_run sliceBudget (m := s.machine) (s.ctx.awaits_step hm) s.out
  refine ⟨_, _, run_command_step hp s, Scheduler.isActive_cancel_self _ _, ?_⟩
  rw [Context.gtime_cancelStep]
  obtain ⟨hle, heq⟩ := hb
  by_cases hst : (s.machine.run sliceBudget (s.ctx.step (min (n : Int) maxDelay)) s.out).1 =
      .stepExpired
  · exact .inl ⟨hst, heq hst⟩
  · exact .inr ⟨hst, hle⟩

/-- STEP alone on the program `NOP; NOP`: the line reads as one step, the theorem applies, and
the run ends on the count, after one instruction. -/
theorem step_stops_within_count_of_nop :
    let s : Session := { Session.new {} false {} with
      machine := (Session.new {} false {}).machine.load [.nop, .nop] }
    Command.parse "STEP" = .ok (.step 1) ∧
      (∃ stop s₁, (command "STEP").run s = (reportStop stop).run s₁ ∧
        s₁.ctx.sched.isActive Context.stepUnit = false ∧
        ((stop = .stepExpired ∧ s₁.ctx.gtime = s.ctx.gtime + min ((1 : Nat) : Int) maxDelay) ∨
          (stop ≠ .stepExpired ∧ s₁.ctx.gtime ≤ s.ctx.gtime + min ((1 : Nat) : Int) maxDelay))) ∧
      (s.machine.run sliceBudget (s.ctx.step 1) s.out).1 = .stepExpired := by
  intro s
  exact ⟨Command.parse_step_alone, step_stops_within_count Command.parse_step_alone s,
    by decide +kernel⟩

end Session

end SimControl
