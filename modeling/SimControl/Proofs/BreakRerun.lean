import Mathlib.Algebra.Order.BigOperators.Group.List
import SimControl.Proofs.BreakDebounce
import SimControl.Proofs.SchedulerClock
import SimControl.Bench.Machine
/-!
# Running again after a breakpoint

A breakpoint stops the test bench before the instruction takes effect: the machine is left as
it was and no time passes, so running again executes the same instruction at the same instant,
and its tests look at the same places (`Machine.probes`). What changes is the table: the record
that fired is stamped with the instant in the test's debounce space, and a test passes over a
record already stamped there. Counting, at the places the instruction tests, the (record,
space) pairs not yet matched at the instant (`BreakTable.unmatched`): no test at the instant
adds one, and a test that fires removes one. So each re-run that stops on a breakpoint at the
same instant has matched one more pair, and there are only so many
(`reruns_after_breakpoint_progress`).

* `Did`: what one instruction can do, seen by the tests and the clock; every instruction does
  one of these things (`did_execute`).
* `run_clocked`: a run keeps the clock invariant and never moves the clock back, so a re-run
  whose instruction completes ends later than it started.
-/

namespace SimControl

/-- The stop is a breakpoint's. -/
def Stop.isBreakpoint : Stop → Bool
  | .breakpoint .. => true
  | _ => false

/-! ## Pairs not yet matched at an instant -/

section Count

variable {α : Type} {l : List α} {i : Nat} {x : α} {p : α → Bool}

theorem countP_set_le (hi : l[i]? = some x) {y : α} (h : p y = true → p x = true) :
    (l.set i y).countP p ≤ l.countP p := by
  obtain ⟨hlt, rfl⟩ := List.getElem?_eq_some_iff.mp hi
  rw [List.countP_set hlt]
  have hx := List.boole_getElem_le_countP (p := p) hlt
  cases hy : p y
  · simp only [Bool.false_eq_true, if_false]
    omega
  · simp only [h hy, if_true] at hx ⊢
    omega

theorem countP_set_lt (hi : l[i]? = some x) {y : α} (hx : p x = true) (hy : p y = false) :
    (l.set i y).countP p < l.countP p := by
  obtain ⟨hlt, rfl⟩ := List.getElem?_eq_some_iff.mp hi
  rw [List.countP_set hlt]
  have hle := List.boole_getElem_le_countP (p := p) hlt
  simp only [hx, hy, if_true, Bool.false_eq_true, if_false] at hle ⊢
  omega

theorem countP_eraseIdx_lt (hi : l[i]? = some x) (hx : p x = true) :
    (l.eraseIdx i).countP p < l.countP p := by
  obtain ⟨hlt, rfl⟩ := List.getElem?_eq_some_iff.mp hi
  -- the list is what comes before the element, the element, and what comes after
  have hsplit : l = l.take i ++ l[i] :: l.drop (i + 1) := by
    rw [List.getElem_cons_drop, List.take_append_drop]
  rw [List.eraseIdx_eq_take_drop_succ]
  conv => rhs; rw [hsplit]
  simp only [List.countP_append, List.countP_cons, hx, if_true]
  omega

end Count

namespace BreakTable

/-- The records at an address not yet matched at an instant in a debounce space: those a test
there, at that instant and in that space, can still select. -/
def unmatchedAt (b : BreakTable) (now : Int) (p : Address × Nat) : Nat :=
  (b.at? p.1).countP fun r => r.firedAt p.2 != some now

/-- The (record, space) pairs at some places not yet matched at an instant. -/
def unmatched (b : BreakTable) (now : Int) (ps : List (Address × Nat)) : Nat :=
  (ps.map (b.unmatchedAt now)).sum

/-- The (record, space) pairs at some places. -/
def pairs (b : BreakTable) (ps : List (Address × Nat)) : Nat :=
  (ps.map fun p => (b.at? p.1).length).sum

theorem unmatched_le_pairs (b : BreakTable) (now : Int) (ps : List (Address × Nat)) :
    b.unmatched now ps ≤ b.pairs ps :=
  List.sum_le_sum fun _ _ => List.countP_le_length

variable {b : BreakTable} {a : Address} {types : BreakTypes} {now : Int}

/-- A record stamped at an instant in a space has matched at that instant in that space, and
wherever it had before. -/
theorem firedAt_ne_of_stamp {r : BreakRecord} {sp s : Nat} (hsp : sp < 8) (n : Nat)
    (h : ({ r.stamp sp (some now) with count := n } : BreakRecord).firedAt s ≠ some now) :
    s ≠ sp ∧ r.firedAt s ≠ some now := by
  have hs : s ≠ sp := by
    rintro rfl
    exact h (BreakRecord.firedAt_stamp_self r hsp _)
  exact ⟨hs, by rwa [← BreakRecord.firedAt_stamp_ne r (Ne.symm hs) (some now)]⟩

theorem unmatchedAt_test_le (b : BreakTable) (a : Address) (types : BreakTypes) (now : Int)
    (p : Address × Nat) : (b.test a types now).2.unmatchedAt now p ≤ b.unmatchedAt now p := by
  cases hsel : b.selected? a types now with
  | none => rw [test_of_selected?_eq_none hsel]
  | some r =>
    obtain ⟨i, hi, hat⟩ := at?_test hsel
    unfold unmatchedAt
    rw [hat p.1]
    split
    · next ha =>
      rw [← ha]
      split
      · exact (List.eraseIdx_sublist _ _).countP_le
      · refine countP_set_le hi fun h => ?_
        have h' : ({ r.stamp types.space (some now) with count := r.count - 1 } : BreakRecord).firedAt
            p.2 ≠ some now := by
          simpa using h
        simpa using (firedAt_ne_of_stamp types.space_lt _ h').2
    · exact le_refl _

/-- A test that selects a record matches it: one pair fewer is unmatched at the instant, at the
test's address and in its space. -/
theorem unmatchedAt_test_lt {r : BreakRecord} (hsel : b.selected? a types now = some r) :
    (b.test a types now).2.unmatchedAt now (a, types.space) < b.unmatchedAt now (a, types.space) := by
  obtain ⟨i, hi, hat⟩ := at?_test hsel
  have hr : (r.firedAt types.space != some now) = true := by
    simpa using (selected?_spec hsel).2.2
  unfold unmatchedAt
  rw [hat a, if_pos rfl]
  split
  · exact countP_eraseIdx_lt hi hr
  · refine countP_set_lt hi hr ?_
    have h := BreakRecord.firedAt_stamp_self r types.space_lt (some now)
    change ((r.stamp types.space (some now)).firedAt types.space != some now) = false
    simp [h]

end BreakTable

/-! ## Breakpoint tests of a context -/

namespace Context

variable {c : Context} {a : Address} {t : BreakTypes}

@[simp] theorem sched_brkTest (c : Context) (a : Address) (t : BreakTypes) :
    (c.brkTest a t).2.sched = c.sched := by
  unfold brkTest
  split
  · rfl
  · dsimp only
    split <;> rfl

theorem breaks_brkTest (c : Context) (a : Address) (t : BreakTypes) :
    (c.brkTest a t).2.breaks = (c.breaks.test a t c.gtime).2 := by
  unfold brkTest
  split
  · next h => rw [h]
  · next h =>
    dsimp only
    split <;> rw [h]

theorem brkTest_fires {stop : Stop} (h : (c.brkTest a t).1 = some stop) :
    stop.isBreakpoint ∧ ∃ r, c.breaks.selected? a t c.gtime = some r := by
  cases hsel : c.breaks.selected? a t c.gtime with
  | none =>
    unfold brkTest at h
    rw [BreakTable.test_eq_of_selected?_eq_none hsel] at h
    cases h
  | some r =>
    refine ⟨?_, r, rfl⟩
    unfold brkTest at h
    split at h
    · cases h
    · cases h
      rfl

@[simp] theorem sched_sendPoll (c : Context) (line : Nat) : (c.sendPoll line).2.sched = c.sched := by
  unfold sendPoll
  split <;> rfl

end Context

namespace Bench.Console

theorem sched_write (con : Console) (s : Scheduler) (bytes : List UInt8) :
    (con.write s bytes).2 = s ∨ ∃ u, (con.write s bytes).2 = s.activate u characterTime := by
  unfold write
  dsimp only
  split
  · exact Or.inl rfl
  · exact Or.inr ⟨_, rfl⟩

end Bench.Console

namespace Bench.Machine

/-- A change of context by breakpoint tests alone: the scheduler, and so the instant, stays, and
no pair becomes unmatched at the instant. -/
structure Quiet (c c' : Context) : Prop where
  sched_eq : c'.sched = c.sched
  unmatchedAt_le : ∀ p, c'.breaks.unmatchedAt c.gtime p ≤ c.breaks.unmatchedAt c.gtime p

theorem Quiet.refl (c : Context) : Quiet c c := ⟨rfl, fun _ => le_refl _⟩

theorem Quiet.gtime_eq {c c' : Context} (h : Quiet c c') : c'.gtime = c.gtime :=
  congrArg Scheduler.gtime h.sched_eq

theorem Quiet.trans {c₁ c₂ c₃ : Context} (h₁ : Quiet c₁ c₂) (h₂ : Quiet c₂ c₃) :
    Quiet c₁ c₃ where
  sched_eq := h₂.sched_eq.trans h₁.sched_eq
  unmatchedAt_le p := by
    have h := h₂.unmatchedAt_le p
    rw [h₁.gtime_eq] at h
    exact h.trans (h₁.unmatchedAt_le p)

/-- Fewer pairs unmatched at one place and no more at any other: fewer over any places that
include it. -/
theorem Quiet.unmatched_lt {c c' : Context} (h : Quiet c c') {ps : List (Address × Nat)}
    {p : Address × Nat} (hp : p ∈ ps)
    (hlt : c'.breaks.unmatchedAt c.gtime p < c.breaks.unmatchedAt c.gtime p) :
    c'.breaks.unmatched c.gtime ps < c.breaks.unmatched c.gtime ps :=
  List.sum_lt_sum _ _ (fun q _ => h.unmatchedAt_le q) ⟨p, hp, hlt⟩

theorem quiet_checkBreak (c : Context) (a : Address) (t : BreakTypes) (space : Nat) :
    Quiet c (checkBreak c a t space).2 := by
  unfold checkBreak
  split
  · exact Quiet.refl c
  · refine ⟨Context.sched_brkTest _ _ _, fun p => ?_⟩
    rw [Context.breaks_brkTest]
    exact BreakTable.unmatchedAt_test_le _ _ _ _ p

/-- A test that stops reports a breakpoint, and matched a pair at its address in its space. -/
theorem checkBreak_fires {c c' : Context} {a : Address} {t : BreakTypes} {space : Nat}
    {stop : Stop} (h : checkBreak c a t space = (some stop, c')) :
    stop.isBreakpoint ∧ c'.breaks.unmatchedAt c.gtime (a, (t.inSpace space).space) <
      c.breaks.unmatchedAt c.gtime (a, (t.inSpace space).space) := by
  unfold checkBreak at h
  split at h
  · cases h
  · obtain ⟨hstop, r, hsel⟩ := Context.brkTest_fires (congrArg Prod.fst h)
    refine ⟨hstop, ?_⟩
    have hc' : c' = (c.brkTest a (t.inSpace space)).2 := by rw [h]
    rw [hc', Context.breaks_brkTest]
    exact BreakTable.unmatchedAt_test_lt hsel

/-! ## What one instruction does -/

/-- The places the breakpoint tests of the instruction at the program counter look at, each with
its debounce space: execution in space 0 and fetch in space 1 at the counter, and the address a
load reads or a store writes, in space 2. -/
def probes (m : Machine) : List (Address × Nat) :=
  (m.pc, 0) :: (m.pc, 1) :: match m.instructionAt m.pc with
    | some (.load a) | some (.store a) => [(a, 2)]
    | _ => []

/-- What one instruction can do, seen by the breakpoint tests and the clock. -/
inductive Did (m : Machine) (c : Context) : Except Stop Unit × Machine × Context → Prop
  /-- A test fired: the machine is as it was, the instant has not moved, no pair became
  unmatched, and at one place the instruction tests one pair fewer is unmatched. -/
  | breakpoint {stop : Stop} {c' : Context} {p : Address × Nat} : stop.isBreakpoint = true →
      p ∈ m.probes → Quiet c c' →
      c'.breaks.unmatchedAt c.gtime p < c.breaks.unmatchedAt c.gtime p → Did m c (.error stop, m, c')
  /-- The instruction stopped for another reason, after at most one instruction time. -/
  | stopped {stop : Stop} {m' : Machine} {c' : Context} : stop.isBreakpoint = false →
      (c'.sched = c.sched ∨ c'.sched = c.sched.consume 1) → Did m c (.error stop, m', c')
  /-- The instruction completed: one instruction time passed, after the console unit may have
  been queued. -/
  | completed {m' : Machine} {c' : Context} (x : Scheduler) :
      (x = c.sched ∨ ∃ u, x = c.sched.activate u characterTime) → c'.sched = x.consume 1 →
      Did m c (.ok (), m', c')

theorem Did.of_quiet {m : Machine} {c c₁ : Context} {r : Except Stop Unit × Machine × Context}
    (hq : Quiet c c₁) (h : Did m c₁ r) : Did m c r := by
  cases h with
  | breakpoint hstop hp hq' hlt =>
    refine .breakpoint hstop hp (hq.trans hq') ?_
    rw [hq.gtime_eq] at hlt
    exact lt_of_lt_of_le hlt (hq.unmatchedAt_le _)
  | stopped hstop hs => exact .stopped hstop (by rwa [hq.sched_eq] at hs)
  | completed x hx hs => exact .completed x (by rwa [hq.sched_eq] at hx) hs

theorem did_tick {m m' : Machine} {c c' : Context} (h : c'.sched = c.sched) :
    Did m c (tick m' c') :=
  .completed c.sched (Or.inl rfl) (by rw [← h])

/-- The test before a data access fires, or lets the instruction complete. -/
theorem did_dataTest {m m' : Machine} {c : Context} {a : Address} {t : BreakTypes}
    (hp : (a, (t.inSpace 2).space) ∈ m.probes) :
    Did m c (match checkBreak c a t 2 with
      | (some stop, c) => (.error stop, m, c)
      | (none, c) => tick m' c) := by
  have hq := quiet_checkBreak c a t 2
  rcases h : checkBreak c a t 2 with ⟨_ | stop, c'⟩
  · rw [h] at hq
    exact did_tick hq.sched_eq
  · rw [h] at hq
    obtain ⟨hstop, hlt⟩ := checkBreak_fires h
    exact .breakpoint hstop hp hq hlt

/-- Every instruction does one of the things `Did` lists. -/
theorem did_execute (m : Machine) (c : Context) : Did m c (m.execute c) := by
  have hE : (executeTypes.inSpace 0).space = 0 := by decide
  have hN : (fetchTypes.inSpace 1).space = 1 := by decide
  have hR : (readTypes.inSpace 2).space = 2 := by decide
  have hW : (writeTypes.inSpace 2).space = 2 := by decide
  unfold execute
  dsimp only
  have q₁ := quiet_checkBreak c m.pc executeTypes 0
  rcases h₁ : checkBreak c m.pc executeTypes 0 with ⟨_ | stop, c₁⟩ <;> simp only [h₁] at q₁
  case some =>
    obtain ⟨hstop, hlt⟩ := checkBreak_fires h₁
    rw [hE] at hlt
    have hp : (m.pc, 0) ∈ m.probes := by simp [probes]
    exact .breakpoint hstop hp q₁ hlt
  dsimp only
  have q₂ := quiet_checkBreak c₁ m.pc fetchTypes 1
  rcases h₂ : checkBreak c₁ m.pc fetchTypes 1 with ⟨_ | stop, c₂⟩ <;> simp only [h₂] at q₂
  case some =>
    obtain ⟨hstop, hlt⟩ := checkBreak_fires h₂
    rw [hN] at hlt
    have hp : (m.pc, 1) ∈ m.probes := by simp [probes]
    exact Did.of_quiet q₁ (.breakpoint hstop hp q₂ hlt)
  dsimp only
  -- past its two tests, the instruction runs in the context they left
  refine Did.of_quiet (q₁.trans q₂) ?_
  cases hi : m.instructionAt m.pc with
  | none => exact .stopped rfl (Or.inl rfl)
  | some i =>
    cases i with
    | nop | add _ | jump _ | jumpNonzero _ | call _ => exact did_tick rfl
    | halt => exact .stopped rfl (Or.inr rfl)
    | print text =>
      dsimp only
      rcases hw : m.console.write c₂.sched text with ⟨con, s⟩
      have hs := Console.sched_write m.console c₂.sched text
      rw [hw] at hs
      exact .completed s hs rfl
    | read =>
      dsimp only
      have hs := Context.sched_sendPoll c₂ 0
      rcases hp : c₂.sendPoll 0 with ⟨p, c₃⟩
      simp only [hp] at hs
      cases p with
      | injected b => exact did_tick hs
      | notYet => exact did_tick hs
      | idle => exact .stopped rfl (Or.inl hs)
    | load a =>
      dsimp only
      exact did_dataTest (by rw [hR]; simp [probes, hi])
    | store a =>
      dsimp only
      exact did_dataTest (by rw [hW]; simp [probes, hi])
    | ret =>
      dsimp only
      split
      · exact did_tick rfl
      · exact .stopped rfl (Or.inl rfl)

end Bench.Machine

/-! ## The clock over a run -/

namespace Scheduler

variable {σ : Type} {s : Scheduler}

theorem Clocked.interval_le_due (hc : s.Clocked) {e : UnitId × Due} (he : e ∈ s.queue.entries) :
    s.interval ≤ e.2.time - s.gtime := by
  cases hp : s.queue.peek? with
  | none =>
    rw [s.queue.peek?_eq_argmin_key, List.argmin_eq_none] at hp
    rw [hp] at he
    cases he
  | some h =>
    have hhead := hc.head h hp
    have hle := KeyedQueue.peek?_time_le hp he
    omega

/-- Queueing a unit some time ahead leaves time on the countdown, if there was some. -/
theorem Clocked.interval_activate_pos (hc : s.Clocked) (hi : 0 < s.interval) (u : UnitId)
    {d : Int} (hd : 0 < d) (hd' : d ≤ maxDelay) : 0 < (s.activate u d).interval := by
  cases ha : s.isActive u
  · have hc' := hc.activate u (by simp only [minDelay]; omega) hd'
    -- the new head is a unit queued before or the new one, both due after now
    cases hp : (s.activate u d).queue.peek? with
    | none =>
      rw [KeyedQueue.peek?_eq_argmin_key, List.argmin_eq_none, activate_of_not_isActive ha] at hp
      simp at hp
    | some e =>
      have hhead := hc'.head e hp
      have hmem := KeyedQueue.mem_of_peek?_eq_some hp
      rw [gtime_activate] at hhead
      rw [activate_of_not_isActive ha] at hmem
      rcases List.mem_append.mp hmem with hold | hnew
      · have := hc.interval_le_due hold
        omega
      · rw [List.mem_singleton] at hnew
        subst hnew
        dsimp only at hhead
        omega
  · rw [activate_of_isActive ha]
    exact hi

theorem gtime_consume_one (hi : 0 < s.interval) (hi' : s.interval ≤ maxDelay) :
    (s.consume 1).gtime = s.gtime + 1 := by
  rw [gtime_consume hi' (by decide)]
  simp only [minDelay] at *
  omega

/-- A loop of events stops only as one of its units does. -/
theorem fireDue_error {react : Reaction σ} {P : Stop → Prop}
    (hr : ∀ u st s e, (react u st s).1 = .error e → P e) :
    ∀ fuel st s e, (fireDue react fuel st s).1 = .error e → P e := by
  intro fuel
  induction fuel with
  | zero => intro st s e h; cases h
  | succ fuel ih =>
    intro st s e h
    rw [fireDue] at h
    split at h
    · cases h
    · dsimp only at h
      split at h
      · next heq =>
        cases h
        exact hr _ _ _ _ (congrArg Prod.fst heq)
      · split at h
        · cases h
        · split at h
          · split at h
            · exact ih _ _ _ h
            · cases h
          · cases h

theorem processEvent_error {react : Reaction σ} {P : Stop → Prop} (hu : P .userStop)
    (hr : ∀ u st s e, (react u st s).1 = .error e → P e) (extra : Nat) (st : σ) (e : Stop)
    (h : (s.processEvent react extra st).1 = .error e) : P e := by
  unfold processEvent at h
  split at h
  · cases h
    exact hu
  · dsimp only at h
    split at h
    · cases h
    · exact fireDue_error hr _ _ _ _ h

end Scheduler

namespace Context

/-- A byte of output queues the expect unit, if anything, within 32-bit delays. -/
theorem sched_expCheck (c : Context) (line : Nat) (byte : UInt8) :
    (c.expCheck line byte).sched = c.sched ∨
      ∃ d, 0 ≤ d ∧ d ≤ maxDelay ∧ (c.expCheck line byte).sched = c.sched.activate expectUnit d := by
  unfold expCheck
  split
  · exact Or.inl rfl
  · dsimp only
    split
    · exact Or.inl rfl
    · -- staging the rule's action leaves the scheduler and the settings alone
      split <;> refine Or.inr ⟨_, ?_, ?_, rfl⟩ <;> split
      all_goals first
        | exact Config.usecsToInstructions_nonneg _ _
        | exact le_min (by decide) (Int.natCast_nonneg _)
        | exact min_le_left _ _

theorem sched_processEvent {σ : Type} (machine : Scheduler.Reaction σ) (extra : Nat) (st : σ)
    (c : Context) :
    (c.processEvent machine extra st).2.2.sched =
      (c.sched.processEvent (units machine) extra st).2.2 := rfl

end Context

namespace Bench.Machine

/-- The units of the test bench only queue the console, one character time ahead. -/
theorem confined_units : Scheduler.Confined (Context.units Console.react) := by
  intro u con s
  unfold Context.units
  split
  · exact ⟨[], by simp, rfl⟩
  · split
    · exact ⟨[], by simp, rfl⟩
    · unfold Console.react
      split
      · exact ⟨[], by simp, rfl⟩
      · dsimp only
        split <;> split
        all_goals first
          | exact ⟨[], by simp, rfl⟩
          | exact ⟨[.activate _ characterTime], by simp [Call.Fits, characterTime, minDelay, maxDelay],
              rfl⟩

theorem units_error_not_breakpoint (u : UnitId) (con : Console) (s : Scheduler) (e : Stop)
    (h : (Context.units Console.react u con s).1 = .error e) : e.isBreakpoint = false := by
  unfold Context.units at h
  split at h
  · cases h
    rfl
  · split at h
    · cases h
      rfl
    · unfold Console.react at h
      split at h
      · cases h
        rfl
      · cases h

theorem clocked_foldl_expCheck (bytes : List UInt8) {c : Context} (hc : c.sched.Clocked) :
    (bytes.foldl (fun c b => c.expCheck 0 b) c).sched.Clocked ∧
      (bytes.foldl (fun c b => c.expCheck 0 b) c).gtime = c.gtime := by
  induction bytes generalizing c with
  | nil => exact ⟨hc, rfl⟩
  | cons b bytes ih =>
    rw [List.foldl_cons]
    have h : (c.expCheck 0 b).sched.Clocked ∧ (c.expCheck 0 b).gtime = c.gtime := by
      rcases Context.sched_expCheck c 0 b with h | ⟨d, hd, hd', h⟩
      · exact ⟨h ▸ hc, congrArg Scheduler.gtime h⟩
      · refine ⟨h ▸ hc.activate _ (by simp only [minDelay] at *; omega) hd', ?_⟩
        show (c.expCheck 0 b).sched.gtime = c.sched.gtime
        rw [h, Scheduler.gtime_activate]
    obtain ⟨hc', hg⟩ := ih h.1
    exact ⟨hc', hg.trans h.2⟩

/-- The scheduler an instruction leaves before its instruction time, the console unit maybe
queued a character time ahead, keeps the clock invariant, the time left on the countdown and
the time. -/
theorem ready_of_write {s x : Scheduler} (hc : s.Clocked) (hi : 0 < s.interval)
    (hx : x = s ∨ ∃ u, x = s.activate u characterTime) :
    x.Clocked ∧ 0 < x.interval ∧ x.gtime = s.gtime := by
  rcases hx with rfl | ⟨u, rfl⟩
  · exact ⟨hc, hi, rfl⟩
  · exact ⟨hc.activate u (by decide) (by decide), hc.interval_activate_pos hi u (by decide)
      (by decide), Scheduler.gtime_activate _ _ _⟩

/-- One instruction time, after the console unit may have been queued, keeps the clock
invariant and moves the clock by one, when time was left on the countdown. -/
theorem tick_clocked {s x : Scheduler} (hc : s.Clocked) (hi : 0 < s.interval)
    (hx : x = s ∨ ∃ u, x = s.activate u characterTime) :
    (x.consume 1).Clocked ∧ (x.consume 1).gtime = s.gtime + 1 := by
  obtain ⟨hcx, hix, hgx⟩ := ready_of_write hc hi hx
  refine ⟨hcx.consume (by decide), ?_⟩
  rw [Scheduler.gtime_consume_one hix hcx.interval_le, hgx]

theorem Did.clocked {m : Machine} {c : Context} {r : Except Stop Unit × Machine × Context}
    (hd : Did m c r) (hc : c.sched.Clocked) (hi : 0 < c.sched.interval) :
    r.2.2.sched.Clocked ∧ c.gtime ≤ r.2.2.gtime := by
  cases hd with
  | breakpoint _ _ hq _ => exact ⟨hq.sched_eq ▸ hc, hq.gtime_eq.ge⟩
  | stopped _ hs =>
    rcases hs with hs | hs
    · exact ⟨hs ▸ hc, (congrArg Scheduler.gtime hs).ge⟩
    · obtain ⟨hcl, hg⟩ := tick_clocked hc hi (Or.inl rfl)
      refine ⟨hs ▸ hcl, ?_⟩
      simp only [Context.gtime, hs, hg]
      omega
  | completed x hx hs =>
    obtain ⟨hcl, hg⟩ := tick_clocked hc hi hx
    refine ⟨hs ▸ hcl, ?_⟩
    simp only [Context.gtime, hs, hg]
    omega

theorem runSlice_clocked {m : Machine} {c : Context} (hc : c.sched.Clocked) (out : Array UInt8) :
    (m.runSlice c out).2.2.1.sched.Clocked ∧ c.gtime ≤ (m.runSlice c out).2.2.1.gtime := by
  unfold runSlice
  split
  · -- the due units fire, then the console's characters go through the expect rules
    have hc₁ := hc.processEvent confined_units 0 m.console
    have hg₁ := Scheduler.gtime_le_processEvent confined_units 0 m.console c.sched
    rw [← Context.sched_processEvent] at hc₁ hg₁
    rcases hp : c.processEvent Console.react 0 m.console with ⟨status, con, c₁⟩
    rw [hp] at hc₁ hg₁
    obtain ⟨hc₂, hg₂⟩ := clocked_foldl_expCheck con.emitted hc₁
    exact ⟨hc₂, hg₂ ▸ hg₁⟩
  · next hi =>
    have hd := did_execute m c
    rcases hx : m.execute c with ⟨r, m', c'⟩
    rw [hx] at hd
    exact hd.clocked hc (by omega)

/-- A run keeps the clock invariant and never moves the clock back. -/
theorem run_clocked (fuel : Nat) {m : Machine} {c : Context} (hc : c.sched.Clocked)
    (out : Array UInt8) :
    (m.run fuel c out).2.2.1.sched.Clocked ∧ c.gtime ≤ (m.run fuel c out).2.2.1.gtime := by
  induction fuel generalizing m c out with
  | zero => exact ⟨hc, le_refl _⟩
  | succ fuel ih =>
    have hs := runSlice_clocked (m := m) hc out
    rw [run]
    rcases h : m.runSlice c out with ⟨r, m', c', out'⟩
    rw [h] at hs
    cases r with
    | error stop => exact hs
    | ok u =>
      obtain ⟨hc', hg⟩ := ih (m := m') hs.1 out'
      exact ⟨hc', hs.2.trans hg⟩

/-! ## Stopping on a breakpoint, and running again -/

theorem processEvent_not_breakpoint (c : Context) (con : Console) (e : Stop)
    (h : (c.processEvent Console.react 0 con).1 = .error e) : e.isBreakpoint = false :=
  Scheduler.processEvent_error (P := fun e => e.isBreakpoint = false) rfl units_error_not_breakpoint
    0 con e h

/-- A slice stops on a breakpoint only by executing, with time left on the countdown, an
instruction that stops there. -/
theorem runSlice_breakpoint {m m' : Machine} {c c' : Context} {out out' : Array UInt8}
    {stop : Stop} (h : m.runSlice c out = (.error stop, m', c', out'))
    (hstop : stop.isBreakpoint = true) :
    0 < c.sched.interval ∧ m.execute c = (.error stop, m', c') := by
  unfold runSlice at h
  split at h
  · rcases hp : c.processEvent Console.react 0 m.console with ⟨status, con, c₁⟩
    rw [hp] at h
    have hs : status = .error stop := congrArg Prod.fst h
    have hnot := processEvent_not_breakpoint c m.console stop (by rw [hp]; exact hs)
    rw [hstop] at hnot
    cases hnot
  · next hi =>
    refine ⟨by omega, ?_⟩
    rcases hx : m.execute c with ⟨r, m₁, c₁⟩
    rw [hx] at h
    simp only [Prod.mk.injEq] at h
    obtain ⟨rfl, rfl, rfl, -⟩ := h
    rfl

/-- With time left on the countdown, a slice executes one instruction. -/
theorem runSlice_of_interval_pos {m : Machine} {c : Context} (hi : 0 < c.sched.interval)
    (out : Array UInt8) :
    m.runSlice c out = ((m.execute c).1, (m.execute c).2.1, (m.execute c).2.2, out) := by
  unfold runSlice
  rw [if_neg (show ¬c.sched.interval ≤ 0 by omega)]

/-- Where a run stopped on a breakpoint: the clock invariant holds and time is left on the
countdown, so the next slice executes the same instruction. -/
structure Paused (c : Context) : Prop where
  clocked : c.sched.Clocked
  interval_pos : 0 < c.sched.interval

theorem Paused.of_quiet {c c' : Context} (hp : Paused c) (hq : Quiet c c') : Paused c' :=
  ⟨hq.sched_eq ▸ hp.clocked, hq.sched_eq ▸ hp.interval_pos⟩

/-- A run from the clock invariant that stops on a breakpoint leaves the context paused. -/
theorem paused_of_run_breakpoint (fuel : Nat) {m : Machine} {c : Context} {out : Array UInt8}
    (hc : c.sched.Clocked) (h : (m.run fuel c out).1.isBreakpoint = true) :
    Paused (m.run fuel c out).2.2.1 := by
  induction fuel generalizing m c out with
  | zero => cases h
  | succ fuel ih =>
    have hcl := (runSlice_clocked (m := m) hc out).1
    rw [run] at h ⊢
    rcases hs : m.runSlice c out with ⟨r, m', c', out'⟩
    rw [hs] at h hcl
    cases r with
    | error stop =>
      obtain ⟨hi, hx⟩ := runSlice_breakpoint hs h
      have hd := did_execute m c
      rw [hx] at hd
      cases hd with
      | breakpoint _ _ hq _ => exact Paused.of_quiet ⟨hc, hi⟩ hq
      | stopped hstop _ =>
        rw [hstop] at h
        cases h
    | ok u => exact ih hcl h

/-- Runs the machine again from where a run ended, with nothing in between. -/
def rerun (fuel : Nat) (o : Outcome) : Outcome := o.2.1.run fuel o.2.2.1 o.2.2.2

/-- Re-runs one after another, each from where the last ended, with the fuel given for each. -/
def reruns : List Nat → Outcome → List Outcome
  | [], _ => []
  | fuel :: fuels, o => rerun fuel o :: reruns fuels (rerun fuel o)

/-- A re-run from a paused context that stops on a breakpoint at the same instant stopped before
the same instruction, leaves the context paused, makes no pair unmatched at the instant, and
leaves one pair fewer unmatched at the places the instruction tests. -/
theorem rerun_breakpoint {o : Outcome} (hp : Paused o.2.2.1) (fuel : Nat)
    (h : (rerun fuel o).1.isBreakpoint = true) (ht : (rerun fuel o).2.2.1.gtime = o.2.2.1.gtime) :
    (rerun fuel o).2.1 = o.2.1 ∧ Paused (rerun fuel o).2.2.1 ∧ Quiet o.2.2.1 (rerun fuel o).2.2.1 ∧
      (rerun fuel o).2.2.1.breaks.unmatched o.2.2.1.gtime o.2.1.probes <
        o.2.2.1.breaks.unmatched o.2.2.1.gtime o.2.1.probes := by
  obtain ⟨stop, m, c, out⟩ := o
  unfold rerun at h ht ⊢
  dsimp only at hp h ht ⊢
  cases fuel with
  | zero => cases h
  | succ fuel =>
    -- time is left on the countdown, so the first slice executes the same instruction
    have hi := hp.interval_pos
    rw [run, runSlice_of_interval_pos hi] at h ht ⊢
    have hd := did_execute m c
    rcases hx : m.execute c with ⟨r, m', c'⟩
    rw [hx] at hd h ht
    cases hd with
    | breakpoint _ hmem hq hlt =>
      exact ⟨rfl, hp.of_quiet hq, hq, hq.unmatched_lt hmem hlt⟩
    | stopped hstop _ =>
      rw [hstop] at h
      cases h
    | completed x hsx hs =>
      -- the instruction completed and moved the clock on, which the rest of a run never undoes
      obtain ⟨hcl, hg⟩ := tick_clocked hp.clocked hi hsx
      have hmono := (run_clocked fuel (m := m') (hs ▸ hcl) out).2
      have hnext : c'.gtime = c.gtime + 1 := by
        simp only [Context.gtime, hs, hg]
      dsimp only at ht
      omega

/-- A chain of re-runs from a paused context, each stopping on a breakpoint at the same
instant, is no longer than the pairs unmatched at that instant at the places the instruction
tests. -/
theorem length_le_unmatched_of_reruns {o : Outcome} (hp : Paused o.2.2.1) (fuels : List Nat)
    (h : ∀ o' ∈ reruns fuels o, o'.1.isBreakpoint = true ∧ o'.2.2.1.gtime = o.2.2.1.gtime) :
    fuels.length ≤ o.2.2.1.breaks.unmatched o.2.2.1.gtime o.2.1.probes := by
  induction fuels generalizing o with
  | nil => exact Nat.zero_le _
  | cons fuel fuels ih =>
    have h₁ := h _ List.mem_cons_self
    obtain ⟨hm, hp', -, hlt⟩ := rerun_breakpoint hp fuel h₁.1 h₁.2
    -- the rest of the chain starts from the first re-run: same instruction, same instant
    have hrest := ih hp' fun o' ho' => by
      obtain ⟨hb, ht⟩ := h o' (List.mem_cons_of_mem _ ho')
      exact ⟨hb, ht.trans h₁.2.symm⟩
    rw [hm, h₁.2] at hrest
    rw [List.length_cons]
    omega

/-- Running again after a breakpoint makes progress. Say a run from a context whose clock
invariant holds stops on a breakpoint at instant `t`, and the machine is run again from where it
stopped. A re-run that stops on a breakpoint at `t` too stopped before the same instruction; at
the places that instruction tests, no (record, space) pair that had matched at `t` is unmatched
again, and one more has matched, so it did not report the pair reported before. Hence a chain of
such re-runs, each stopping on a breakpoint at `t`, is no longer than the number of (record,
space) pairs those tests reach; a re-run past it completes the instruction, moving the clock on,
or stops for another reason. -/
theorem reruns_after_breakpoint_progress {m : Machine} {c : Context} (hc : c.sched.Clocked)
    (fuel : Nat) (out : Array UInt8) (hstop : (m.run fuel c out).1.isBreakpoint = true) :
    let o := m.run fuel c out
    let t := o.2.2.1.gtime
    (∀ fuel', (rerun fuel' o).1.isBreakpoint = true → (rerun fuel' o).2.2.1.gtime = t →
      (rerun fuel' o).2.1 = o.2.1 ∧
        (∀ p, (rerun fuel' o).2.2.1.breaks.unmatchedAt t p ≤ o.2.2.1.breaks.unmatchedAt t p) ∧
        (rerun fuel' o).2.2.1.breaks.unmatched t o.2.1.probes <
          o.2.2.1.breaks.unmatched t o.2.1.probes) ∧
    ∀ fuels : List Nat, (∀ o' ∈ reruns fuels o, o'.1.isBreakpoint = true ∧ o'.2.2.1.gtime = t) →
      fuels.length ≤ o.2.2.1.breaks.pairs o.2.1.probes := by
  intro o t
  have hp := paused_of_run_breakpoint fuel hc hstop
  refine ⟨fun fuel' hb ht => ?_, fun fuels h => ?_⟩
  · obtain ⟨hm, -, hq, hlt⟩ := rerun_breakpoint hp fuel' hb ht
    exact ⟨hm, hq.unmatchedAt_le, hlt⟩
  · exact (length_le_unmatched_of_reruns hp fuels h).trans (BreakTable.unmatched_le_pairs _ _ _)

/-- A one-instruction program with an execution breakpoint on its instruction: the first run
stops there, and the tests of the instruction reach two (record, space) pairs. -/
theorem reruns_after_breakpoint_progress_of_nop :
    let c₀ := Context.new {} breakTypeTable
    let b := ((BreakTable.new breakTypeTable).set Address.zero executeTypes 0 none).toOption.getD
      (BreakTable.new breakTypeTable)
    let m := (Machine.new c₀).1.load [.nop]
    let c := { (Machine.new c₀).2 with breaks := b }
    let o := m.run 1 c #[]
    let t := o.2.2.1.gtime
    c.sched.Clocked ∧ o.1.isBreakpoint = true ∧ o.2.2.1.breaks.pairs o.2.1.probes = 2 ∧
      ((∀ fuel', (rerun fuel' o).1.isBreakpoint = true → (rerun fuel' o).2.2.1.gtime = t →
        (rerun fuel' o).2.1 = o.2.1 ∧
          (∀ p, (rerun fuel' o).2.2.1.breaks.unmatchedAt t p ≤ o.2.2.1.breaks.unmatchedAt t p) ∧
          (rerun fuel' o).2.2.1.breaks.unmatched t o.2.1.probes <
            o.2.2.1.breaks.unmatched t o.2.1.probes) ∧
      ∀ fuels : List Nat, (∀ o' ∈ reruns fuels o, o'.1.isBreakpoint = true ∧ o'.2.2.1.gtime = t) →
        fuels.length ≤ o.2.2.1.breaks.pairs o.2.1.probes) := by
  intro c₀ b m c o t
  have hc : c.sched.Clocked :=
    (Scheduler.clocked_new {} (by decide) (by decide)).of_eq rfl rfl rfl rfl
  have hstop : o.1.isBreakpoint = true := by decide
  exact ⟨hc, hstop, by decide, reruns_after_breakpoint_progress hc 1 #[] hstop⟩

end Bench.Machine

end SimControl
