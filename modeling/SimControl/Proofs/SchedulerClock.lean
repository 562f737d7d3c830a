import SimControl.Proofs.SchedulerCalls
/-!
# The scheduler's clock

The countdown stands for the time left until the head of the queue is due. In every scheduler
reached from a new one through calls with 32-bit delays, consumes of non-negative amounts and
events whose units only make such calls, every queued unit is due within the largest 32-bit
delay from now, and the countdown is the time left until the head is due (`Clocked`). Setting
the countdown therefore never clamps, and the countdown has run out exactly when the head is
due. Consuming moves the clock by what it consumed, down to the countdown's lower limit; no
call moves the clock, and an event only moves it forward (`clock_invariants`).

* `fireDue_induction` is the loop of an event as a run: what taking the head off and what a
  unit's reaction keep, the whole loop keeps.
-/

namespace SimControl

theorem clampDelay_of_le_of_le {n : Int} (h₁ : minDelay ≤ n) (h₂ : n ≤ maxDelay) :
    clampDelay n = n := by
  simp only [clampDelay, minDelay, maxDelay] at *
  omega

theorem le_clampDelay (n : Int) : minDelay ≤ clampDelay n := by
  simp only [clampDelay, minDelay, maxDelay]
  omega

theorem clampDelay_le (n : Int) : clampDelay n ≤ maxDelay := by
  simp only [clampDelay, minDelay, maxDelay]
  omega

theorem Due.time_le_of_key_le {a b : Due} (h : a.key ≤ b.key) : a.time ≤ b.time := by
  rw [Due.key, Due.key, Prod.Lex.toLex_le_toLex] at h
  rcases h with h | ⟨h, -⟩
  · exact h.le
  · exact h.le

/-- The head of the queue is due no later than any queued unit. -/
theorem KeyedQueue.peek?_time_le {q : KeyedQueue UnitId Due} {m e : UnitId × Due}
    (hp : q.peek? = some m) (he : e ∈ q.entries) : m.2.time ≤ e.2.time := by
  rw [q.peek?_eq_argmin_key] at hp
  have hle : m.2.key ≤ e.2.key :=
    @List.le_of_mem_argmin (UnitId × Due) (Int ×ₗ Nat) _ (fun x => x.2.key) q.entries e m he hp
  exact Due.time_le_of_key_le hle

/-- A call whose delay fits a 32-bit signed word. -/
def Call.Fits : Call → Prop
  | .activate _ d => minDelay ≤ d ∧ d ≤ maxDelay
  | .activateAbs _ d => minDelay ≤ d ∧ d ≤ maxDelay
  | _ => True

namespace Scheduler

variable {σ : Type} {s : Scheduler}

/-- The reaction only makes calls of the scheduler, each with a delay that fits a 32-bit
word. -/
def Confined (react : Reaction σ) : Prop :=
  ∀ u st s, ∃ calls : List Call, (∀ c ∈ calls, c.Fits) ∧ (react u st s).2.2 = s.performAll calls

/-- The clock invariant: the fixed wait and the countdown fit a 32-bit word, no queued unit is
due further than the largest 32-bit delay from now, and the countdown is the time left until the
head is due. -/
structure Clocked (s : Scheduler) : Prop where
  le_wait : minDelay ≤ s.config.noqueueWait
  wait_le : s.config.noqueueWait ≤ maxDelay
  le_interval : minDelay ≤ s.interval
  interval_le : s.interval ≤ maxDelay
  due_le : ∀ e ∈ s.queue.entries, e.2.time - s.gtime ≤ maxDelay
  head : ∀ e, s.queue.peek? = some e → e.2.time - s.gtime = s.interval

/-- A change that keeps the settings, the queue, the countdown and the clock keeps the
invariant. -/
theorem Clocked.of_eq {s' : Scheduler} (hc : s.Clocked) (hconfig : s'.config = s.config)
    (hqueue : s'.queue = s.queue) (hinterval : s'.interval = s.interval)
    (hgtime : s'.gtime = s.gtime) : s'.Clocked where
  le_wait := hconfig ▸ hc.le_wait
  wait_le := hconfig ▸ hc.wait_le
  le_interval := hinterval ▸ hc.le_interval
  interval_le := hinterval ▸ hc.interval_le
  due_le := hqueue ▸ hgtime ▸ hc.due_le
  head := hqueue ▸ hgtime ▸ hinterval ▸ hc.head

/-- No queued unit is overdue by more than the countdown's lower limit: the head is the
earliest, and it is due exactly when the countdown runs out. -/
theorem Clocked.le_due (hc : s.Clocked) {e : UnitId × Due} (he : e ∈ s.queue.entries) :
    minDelay ≤ e.2.time - s.gtime := by
  cases hp : s.queue.peek? with
  | none =>
    rw [s.queue.peek?_eq_argmin_key, List.argmin_eq_none] at hp
    rw [hp] at he
    cases he
  | some m =>
    have hm := hc.head m hp
    have hle := KeyedQueue.peek?_time_le hp he
    have := hc.le_interval
    omega

/-- Setting the countdown from a time within 32-bit delays of every queued unit gives the
invariant. -/
theorem clocked_resetInterval {x : Scheduler} (hw₁ : minDelay ≤ x.config.noqueueWait)
    (hw₂ : x.config.noqueueWait ≤ maxDelay)
    (hdue : ∀ e ∈ x.queue.entries, e.2.time - x.time ≤ maxDelay)
    (hlow : ∀ e ∈ x.queue.entries, minDelay ≤ e.2.time - x.time) : x.resetInterval.Clocked := by
  have hint := resetInterval_interval x
  refine ⟨hw₁, hw₂, ?_, ?_, ?_, ?_⟩
  · rw [hint]
    split
    · exact le_clampDelay _
    · exact hw₁
  · rw [hint]
    split
    · exact clampDelay_le _
    · exact hw₂
  · rw [gtime_resetInterval]
    exact hdue
  · intro e hp
    rw [resetInterval_queue] at hp
    have hmem := KeyedQueue.mem_of_peek?_eq_some hp
    rw [gtime_resetInterval, hint, hp]
    exact (clampDelay_of_le_of_le (hlow e hmem) (hdue e hmem)).symm

/-! ## Each call keeps the invariant -/

theorem Clocked.updateTime (hc : s.Clocked) : s.updateTime.Clocked :=
  hc.of_eq rfl rfl rfl (gtime_updateTime s)

theorem Clocked.activate (hc : s.Clocked) (u : UnitId) {d : Int} (hd₁ : minDelay ≤ d)
    (hd₂ : d ≤ maxDelay) : (s.activate u d).Clocked := by
  cases ha : s.isActive u
  · rw [activate_of_not_isActive ha]
    -- the new unit is due `d` from now; the others are where they were
    refine clocked_resetInterval hc.le_wait hc.wait_le ?_ ?_
    · intro e he
      rcases List.mem_append.mp he with he | he
      · exact hc.due_le e he
      · rw [List.mem_singleton] at he
        subst he
        show s.gtime + d - s.gtime ≤ maxDelay
        omega
    · intro e he
      rcases List.mem_append.mp he with he | he
      · exact hc.le_due he
      · rw [List.mem_singleton] at he
        subst he
        show minDelay ≤ s.gtime + d - s.gtime
        omega
  · rw [activate_of_isActive ha]
    exact hc

theorem Clocked.cancel (hc : s.Clocked) (u : UnitId) : (s.cancel u).Clocked := by
  cases ha : s.isActive u
  · rw [cancel_of_not_isActive ha]
    exact hc
  · rw [cancel_of_isActive ha]
    refine clocked_resetInterval hc.le_wait hc.wait_le ?_ ?_
    · intro e he
      exact hc.due_le e (List.mem_filter.mp he).1
    · intro e he
      exact hc.le_due (List.mem_filter.mp he).1

theorem Clocked.perform (hc : s.Clocked) {c : Call} (hf : c.Fits) : (s.perform c).Clocked := by
  cases c with
  | register name => exact hc.of_eq rfl rfl rfl rfl
  | activate u d => exact hc.activate u hf.1 hf.2
  | activateAbs u d => exact (hc.cancel u).activate u hf.1 hf.2
  | activateAfter u usecs =>
    have h₀ := s.config.usecsToInstructions_nonneg usecs
    have h₁ : s.config.usecsToInstructions usecs ≤ maxDelay := min_le_left _ _
    exact hc.activate u (by simp only [minDelay] at *; omega) h₁
  | cancel u => exact hc.cancel u
  | requestStop => exact hc.of_eq rfl rfl rfl rfl

theorem Clocked.performAll (hc : s.Clocked) {calls : List Call} (hf : ∀ c ∈ calls, c.Fits) :
    (s.performAll calls).Clocked := by
  induction calls generalizing s with
  | nil => exact hc
  | cons c calls ih =>
    rw [performAll, List.foldl_cons, ← performAll]
    exact ih (hc.perform (hf c List.mem_cons_self)) fun c' hc' => hf c' (List.mem_cons_of_mem c hc')

/-- Consuming moves the clock by what it consumed, down to the countdown's lower limit. -/
theorem gtime_consume (hi : s.interval ≤ maxDelay) {n : Int} (hn : 0 ≤ n) :
    (s.consume n).gtime = s.gtime + min n (s.interval - minDelay) := by
  simp only [gtime, consume, clampDelay, minDelay, maxDelay] at *
  omega

theorem Clocked.consume (hc : s.Clocked) {n : Int} (hn : 0 ≤ n) : (s.consume n).Clocked := by
  have hg := gtime_consume hc.interval_le hn
  have hint : (s.consume n).interval = clampDelay (s.interval - n) := rfl
  have hclamp : clampDelay (s.interval - n) = max minDelay (s.interval - n) := by
    have := hc.interval_le
    simp only [clampDelay, minDelay, maxDelay] at *
    omega
  have hle := hc.le_interval
  refine ⟨hc.le_wait, hc.wait_le, ?_, ?_, ?_, ?_⟩
  · rw [hint]
    exact le_clampDelay _
  · rw [hint]
    exact clampDelay_le _
  · -- the clock only moves forward
    intro e he
    have := hc.due_le e he
    rw [hg]
    simp only [minDelay] at *
    omega
  · -- the head is as far ahead as the countdown, both moved by what was consumed
    intro e hp
    have := hc.head e hp
    rw [hg, hint, hclamp]
    simp only [minDelay] at *
    omega

/-! ## Events -/

/-- The loop of an event as a run: what holds before it, and is kept both by taking the head
off the queue and moving the clock up to it and by a unit's reaction, holds after it. -/
theorem fireDue_induction (P : Scheduler → Prop) (react : Reaction σ)
    (htake : ∀ s u due, P s → s.queue.peek? = some (u, due) →
      P (resetInterval { s with queue := (s.queue.erase u).2, time := max s.time due.time }))
    (hreact : ∀ u st s, P s → P (react u st s).2.2) :
    ∀ fuel st s, P s → P (fireDue react fuel st s).2.2 := by
  intro fuel
  induction fuel with
  | zero => exact fun _ _ hs => hs
  | succ fuel ih =>
    intro st s hs
    rw [fireDue, KeyedQueue.pop]
    cases hp : s.queue.peek? with
    | none => exact hs
    | some e =>
      obtain ⟨u, due⟩ := e
      dsimp only
      have h₂ := hreact u st _ (htake s u due hs hp)
      rcases hre : react u st
          (resetInterval { s with queue := (s.queue.erase u).2, time := max s.time due.time })
        with ⟨r, st', s'⟩
      rw [hre] at h₂
      cases r with
      | error e => exact h₂
      | ok v =>
        dsimp only
        split
        · exact h₂
        · split
          · split
            · exact ih st' s' h₂
            · exact h₂
          · exact h₂

/-- Taking the head off a synchronised scheduler keeps the invariant. -/
theorem Clocked.take (hc : s.Clocked) (hs : s.Synced) {u : UnitId} {due : Due}
    (hp : s.queue.peek? = some (u, due)) :
    (resetInterval { s with queue := (s.queue.erase u).2, time := max s.time due.time }).Clocked := by
  have hg := gtime_eq_time_of_synced hs
  refine clocked_resetInterval hc.le_wait hc.wait_le ?_ ?_
  · intro e he
    have := hc.due_le e (List.mem_filter.mp he).1
    show e.2.time - max s.time due.time ≤ maxDelay
    omega
  · -- a queued unit is due no earlier than the head, and within the lower limit of now
    intro e he
    have hmem := (List.mem_filter.mp he).1
    have h₁ := hc.le_due hmem
    have h₂ := KeyedQueue.peek?_time_le hp hmem
    show minDelay ≤ e.2.time - max s.time due.time
    simp only [minDelay] at *
    omega

theorem Clocked.processEvent (hc : s.Clocked) {react : Reaction σ} (hr : Confined react)
    (extra : Nat) (st : σ) : (s.processEvent react extra st).2.2.Clocked := by
  unfold Scheduler.processEvent
  split
  · exact hc.of_eq rfl rfl rfl rfl
  · dsimp only
    split
    · exact clocked_resetInterval hc.le_wait hc.wait_le hc.due_le fun e he => hc.le_due he
    · -- the loop keeps the invariant together with a synchronised countdown
      have hloop := fireDue_induction (fun x => x.Clocked ∧ x.Synced) react
        (fun x _ _ hx hp => ⟨hx.1.take hx.2 hp, synced_resetInterval _⟩)
        (fun u st x hx => by
          obtain ⟨calls, hfit, hcalls⟩ := hr u st x
          rw [hcalls]
          exact ⟨hx.1.performAll hfit, hx.2.performAll calls⟩)
        (s.updateTime.queue.size + extra) st s.updateTime ⟨hc.updateTime, synced_updateTime s⟩
      exact hloop.1

/-- An event never moves the clock back. -/
theorem gtime_le_processEvent {react : Reaction σ} (hr : Confined react) (extra : Nat) (st : σ)
    (s : Scheduler) : s.gtime ≤ (s.processEvent react extra st).2.2.gtime := by
  unfold Scheduler.processEvent
  split
  · exact le_refl _
  · dsimp only
    split
    · rw [gtime_resetInterval, updateTime_time]
    · -- each head taken moves the clock up to its time; the reactions leave it alone
      have hloop := fireDue_induction (fun x => s.gtime ≤ x.gtime ∧ x.Synced) react
        (fun x _ due hx _ => by
          refine ⟨?_, synced_resetInterval _⟩
          rw [gtime_resetInterval]
          have := hx.1
          rw [gtime_eq_time_of_synced hx.2] at this
          exact le_trans this (le_max_left _ _))
        (fun u st x hx => by
          obtain ⟨calls, -, hcalls⟩ := hr u st x
          rw [hcalls, gtime_performAll]
          exact ⟨hx.1, hx.2.performAll calls⟩)
        (s.updateTime.queue.size + extra) st s.updateTime
        ⟨le_of_eq (gtime_updateTime s).symm, synced_updateTime s⟩
      exact hloop.1

/-! ## Reachable schedulers -/

/-- The schedulers reached from a new one whose fixed wait fits a 32-bit word, through calls
with 32-bit delays, consumes of non-negative amounts, and events whose units only make such
calls. -/
inductive Reach : Scheduler → Prop
  | new (c : Config) (h₁ : minDelay ≤ c.noqueueWait) (h₂ : c.noqueueWait ≤ maxDelay) :
      Reach (Scheduler.new c)
  | perform {s : Scheduler} (c : Call) : Reach s → c.Fits → Reach (s.perform c)
  | consume {s : Scheduler} {n : Int} : Reach s → 0 ≤ n → Reach (s.consume n)
  | processEvent {s : Scheduler} {σ : Type} (react : Reaction σ) (extra : Nat) (st : σ) :
      Reach s → Confined react → Reach (s.processEvent react extra st).2.2

theorem clocked_new (c : Config) (h₁ : minDelay ≤ c.noqueueWait) (h₂ : c.noqueueWait ≤ maxDelay) :
    (Scheduler.new c).Clocked := by
  refine ⟨h₁, h₂, h₁, h₂, ?_, ?_⟩
  · intro e he
    cases he
  · intro e hp
    cases hp

theorem Reach.clocked (hs : s.Reach) : s.Clocked := by
  induction hs with
  | new c h₁ h₂ => exact clocked_new c h₁ h₂
  | perform c _ hf ih => exact ih.perform hf
  | consume _ hn ih => exact ih.consume hn
  | processEvent react extra st _ hr ih => exact ih.processEvent hr extra st

/-- The clock of a scheduler: in every reachable scheduler the head of a non-empty queue is due
within a 32-bit delay of now, so setting the countdown to it never clamps, and the countdown
holds exactly that delay, so it has run out exactly when the head is due; consuming `n ≥ 0`
moves the clock by `n`, down to the countdown's lower limit; no call moves the clock,
activating or cancelling a unit leaves every other unit's activation time alone, and an event
whose units only make calls never moves the clock back. -/
theorem clock_invariants {s : Scheduler} (hs : s.Reach) :
    (∀ u d, s.queue.peek? = some (u, d) →
      minDelay ≤ d.time - s.gtime ∧ d.time - s.gtime ≤ maxDelay ∧
        clampDelay (d.time - s.gtime) = d.time - s.gtime ∧ s.interval = d.time - s.gtime ∧
        (s.interval ≤ 0 ↔ d.time ≤ s.gtime)) ∧
    (∀ n, 0 ≤ n → (s.consume n).gtime = s.gtime + min n (s.interval - minDelay)) ∧
    (∀ c, (s.perform c).gtime = s.gtime) ∧
    (∀ u v d, v ≠ u → (s.activate u d).activateTime v = s.activateTime v) ∧
    (∀ u v, v ≠ u → (s.cancel u).activateTime v = s.activateTime v) ∧
    (∀ (σ : Type) (react : Reaction σ) extra st, Confined react →
      s.gtime ≤ (s.processEvent react extra st).2.2.gtime) := by
  have hc := hs.clocked
  refine ⟨?_, fun n hn => gtime_consume hc.interval_le hn, gtime_perform s, ?_, ?_,
    fun σ react extra st hr => gtime_le_processEvent hr extra st s⟩
  · intro u d hp
    have hhead : d.time - s.gtime = s.interval := hc.head (u, d) hp
    have hmem := KeyedQueue.mem_of_peek?_eq_some hp
    have hlow := hc.le_due hmem
    have hhigh := hc.due_le _ hmem
    refine ⟨hlow, hhigh, clampDelay_of_le_of_le hlow hhigh, hhead.symm, ?_⟩
    omega
  · intro u v d hvu
    unfold activateTime
    rw [get?_activate_of_ne s (Ne.symm hvu), gtime_activate]
  · intro u v hvu
    unfold activateTime
    rw [get?_cancel_of_ne s (Ne.symm hvu), gtime_cancel]

/-- A new scheduler with one unit activated five instruction times ahead. -/
theorem clock_invariants_of_activated :
    let s := (Scheduler.new {}).perform (.activate ⟨0⟩ 5)
    s.Reach ∧
      ((∀ u d, s.queue.peek? = some (u, d) →
        minDelay ≤ d.time - s.gtime ∧ d.time - s.gtime ≤ maxDelay ∧
          clampDelay (d.time - s.gtime) = d.time - s.gtime ∧ s.interval = d.time - s.gtime ∧
          (s.interval ≤ 0 ↔ d.time ≤ s.gtime)) ∧
      (∀ n, 0 ≤ n → (s.consume n).gtime = s.gtime + min n (s.interval - minDelay)) ∧
      (∀ c, (s.perform c).gtime = s.gtime) ∧
      (∀ u v d, v ≠ u → (s.activate u d).activateTime v = s.activateTime v) ∧
      (∀ u v, v ≠ u → (s.cancel u).activateTime v = s.activateTime v) ∧
      (∀ (σ : Type) (react : Reaction σ) extra st, Confined react →
        s.gtime ≤ (s.processEvent react extra st).2.2.gtime)) := by
  intro s
  have hs : s.Reach :=
    .perform (.activate ⟨0⟩ 5) (.new {} (by decide) (by decide)) ⟨by decide, by decide⟩
  exact ⟨hs, clock_invariants hs⟩

end Scheduler

end SimControl
