import SimControl.Proofs.BreakRerun
/-!
# An instruction takes effect whole, or not at all

The test bench executes the instruction at the program counter in two phases: the breakpoint
tests first (execution and fetch at the counter, then the data test of a load or a store), and
then the instruction's effect and one instruction time. A stop raised by a test or by a device
comes before any effect: the machine is left exactly as it was and no time passes, so a run
that resumes executes the instruction once. A HALT is the one stop that takes effect: the
counter moves past it and its instruction time passes.

* `Effect`: what each instruction does to the machine and the context when it completes.
* `Executed`: the outcomes of one execution; every execution has one (`executed_execute`).
* `execute_takes_effect_or_stops_clean`: the outcomes, and the clock after each while the
  machine runs.
-/

namespace SimControl.Bench.Machine

/-- The context as breakpoint tests leave it: only the table and the staged actions may have
changed. -/
def Probed (c c' : Context) : Prop := ∃ b q, c' = { c with breaks := b, actions := q }

theorem Probed.refl (c : Context) : Probed c c := ⟨c.breaks, c.actions, rfl⟩

theorem Probed.trans {c₁ c₂ c₃ : Context} (h₁ : Probed c₁ c₂) (h₂ : Probed c₂ c₃) :
    Probed c₁ c₃ := by
  obtain ⟨b, q, rfl⟩ := h₁
  obtain ⟨b', q', rfl⟩ := h₂
  exact ⟨b', q', rfl⟩

theorem Probed.sched_eq {c c' : Context} (h : Probed c c') : c'.sched = c.sched := by
  obtain ⟨b, q, rfl⟩ := h
  rfl

theorem probed_checkBreak (c : Context) (a : Address) (t : BreakTypes) (space : Nat) :
    Probed c (checkBreak c a t space).2 := by
  unfold checkBreak Context.brkTest
  split
  · exact Probed.refl c
  · split
    · exact ⟨_, c.actions, rfl⟩
    · dsimp only
      split
      · exact ⟨_, _, rfl⟩
      · exact ⟨_, c.actions, rfl⟩

/-- A test that stops the machine reports a breakpoint. -/
theorem checkBreak_stop {c c' : Context} {a : Address} {t : BreakTypes} {space : Nat}
    {stop : Stop} (h : checkBreak c a t space = (some stop, c')) :
    ∃ a' t' msg, stop = .breakpoint a' t' msg := by
  have hstop := (checkBreak_fires h).1
  cases stop with
  | breakpoint a' t' msg => exact ⟨a', t', msg, rfl⟩
  | _ => cases hstop

/-- What an instruction does when it completes, before its instruction time: the machine and
the context it leaves. The counter moves to the next address unless the instruction sets it;
a READ whose input is not due yet leaves the machine as it was, to try again. -/
inductive Effect (m : Machine) (c : Context) : Instruction → Machine → Context → Prop
  | nop : Effect m c .nop { m with pc := m.pc.successor } c
  | print (text : List UInt8) {con : Console} {s : Scheduler} :
      m.console.write c.sched text = (con, s) →
      Effect m c (.print text) { m with console := con, pc := m.pc.successor } { c with sched := s }
  | read (b : UInt8) {c' : Context} : c.sendPoll 0 = (.injected b, c') →
      Effect m c .read { m with acc := Int64.ofNat b.toNat, pc := m.pc.successor } c'
  | wait {c' : Context} : c.sendPoll 0 = (.notYet, c') → Effect m c .read m c'
  | load (a : Address) : Effect m c (.load a) { m with acc := m.peek a, pc := m.pc.successor } c
  | store (a : Address) : Effect m c (.store a) { m.poke a m.acc with pc := m.pc.successor } c
  | add (n : Int64) : Effect m c (.add n) { m with acc := m.acc + n, pc := m.pc.successor } c
  | jump (a : Address) : Effect m c (.jump a) { m with pc := a } c
  | jumpNonzero (a : Address) :
      Effect m c (.jumpNonzero a) { m with pc := if m.acc != 0 then a else m.pc.successor } c
  | call (a : Address) :
      Effect m c (.call a) { m with stack := m.pc.successor :: m.stack, pc := a } c
  | ret {a : Address} {rest : List Address} : m.stack = a :: rest →
      Effect m c .ret { m with stack := rest, pc := a } c

/-- An effect leaves the scheduler alone, except that TYPE may queue the console unit. -/
theorem Effect.sched {m m' : Machine} {c c' : Context} {i : Instruction} (h : Effect m c i m' c') :
    c'.sched = c.sched ∨ ∃ u, c'.sched = c.sched.activate u characterTime := by
  cases h with
  | print text hw =>
    have hs := Console.sched_write m.console c.sched text
    rw [hw] at hs
    exact hs
  | read b hp =>
    have hs := Context.sched_sendPoll c 0
    rw [hp] at hs
    exact .inl hs
  | wait hp =>
    have hs := Context.sched_sendPoll c 0
    rw [hp] at hs
    exact .inl hs
  | _ => exact .inl rfl

/-- The outcomes of executing the instruction at the counter. -/
inductive Executed (m : Machine) (c : Context) : Except Stop Unit × Machine × Context → Prop
  /-- The tests passed, the instruction took effect, and one instruction time passed. -/
  | completed {i : Instruction} {c₁ c₂ : Context} {m' : Machine} : Probed c c₁ →
      m.instructionAt m.pc = some i → Effect m c₁ i m' c₂ →
      Executed m c (.ok (), m', { c₂ with sched := c₂.sched.consume 1 })
  /-- A HALT: the counter moved past it and its instruction time passed, nothing else. -/
  | halted {c₁ : Context} : Probed c c₁ → m.instructionAt m.pc = some .halt →
      Executed m c (.error (.halted m.pc), { m with pc := m.pc.successor },
        { c₁ with sched := c₁.sched.consume 1 })
  /-- A breakpoint fired: the machine is as it was, and only the tests changed the context. -/
  | breakpoint {c₁ : Context} {a : Address} {t : BreakTypes} {msg : String} : Probed c c₁ →
      Executed m c (.error (.breakpoint a t msg), m, c₁)
  /-- A device failed: the machine and the scheduler are as they were. -/
  | device {c₁ : Context} {u msg : String} : c₁.sched = c.sched →
      Executed m c (.error (.device u msg), m, c₁)

/-- The test before a data access stops the machine as it stands, or lets the instruction
complete. -/
theorem executed_dataTest {m m' : Machine} {c c₁ : Context} {i : Instruction} {a : Address}
    {t : BreakTypes} (hp : Probed c c₁) (hi : m.instructionAt m.pc = some i)
    (he : ∀ c₂, Effect m c₂ i m' c₂) :
    Executed m c (match checkBreak c₁ a t 2 with
      | (some stop, c) => (.error stop, m, c)
      | (none, c) => tick m' c) := by
  have hq := hp.trans (probed_checkBreak c₁ a t 2)
  rcases h : checkBreak c₁ a t 2 with ⟨_ | stop, c₂⟩ <;> rw [h] at hq
  · exact .completed hq hi (he c₂)
  · obtain ⟨a', t', msg, rfl⟩ := checkBreak_stop h
    exact .breakpoint hq

/-- Every execution has one of the outcomes `Executed` lists. -/
theorem executed_execute (m : Machine) (c : Context) : Executed m c (m.execute c) := by
  unfold execute
  dsimp only
  have q₁ := probed_checkBreak c m.pc executeTypes 0
  rcases h₁ : checkBreak c m.pc executeTypes 0 with ⟨_ | stop, c₁⟩ <;> rw [h₁] at q₁
  case some =>
    obtain ⟨a, t, msg, rfl⟩ := checkBreak_stop h₁
    exact .breakpoint q₁
  dsimp only
  have q₂ := q₁.trans (probed_checkBreak c₁ m.pc fetchTypes 1)
  rcases h₂ : checkBreak c₁ m.pc fetchTypes 1 with ⟨_ | stop, c₂⟩ <;> rw [h₂] at q₂
  case some =>
    obtain ⟨a, t, msg, rfl⟩ := checkBreak_stop h₂
    exact .breakpoint q₂
  dsimp only
  -- past its two tests, the instruction runs in the context they left
  cases hi : m.instructionAt m.pc with
  | none => exact .device q₂.sched_eq
  | some i =>
    cases i with
    | nop => exact .completed q₂ hi .nop
    | halt => exact .halted q₂ hi
    | print text =>
      dsimp only
      rcases hw : m.console.write c₂.sched text with ⟨con, s⟩
      exact .completed q₂ hi (.print text hw)
    | read =>
      dsimp only
      rcases hp : c₂.sendPoll 0 with ⟨p, c₃⟩
      have hs : c₃.sched = c₂.sched := by
        have := Context.sched_sendPoll c₂ 0
        rwa [hp] at this
      cases p with
      | injected b => exact .completed q₂ hi (.read b hp)
      | notYet => exact .completed q₂ hi (.wait hp)
      | idle => exact .device (hs.trans q₂.sched_eq)
    | load a => exact executed_dataTest q₂ hi fun _ => .load a
    | store a => exact executed_dataTest q₂ hi fun _ => .store a
    | add n => exact .completed q₂ hi (.add n)
    | jump a => exact .completed q₂ hi (.jump a)
    | jumpNonzero a => exact .completed q₂ hi (.jumpNonzero a)
    | call a => exact .completed q₂ hi (.call a)
    | ret =>
      dsimp only
      cases hs : m.stack with
      | cons a rest => exact .completed q₂ hi (.ret hs)
      | nil => exact .device q₂.sched_eq

/-- The instruction times an execution takes: one for an instruction that ran, a HALT
included, and none for a stop that came before the instruction. -/
def timeTaken : Except Stop Unit → Int
  | .ok () => 1
  | .error (.halted _) => 1
  | .error _ => 0

/-- While the machine runs (time left on the countdown, the clock invariant holding), an
execution moves the clock by the time it takes. -/
theorem Executed.gtime {m : Machine} {c : Context} {r : Except Stop Unit × Machine × Context}
    (h : Executed m c r) (hc : c.sched.Clocked) (hi : 0 < c.sched.interval) :
    r.2.2.gtime = c.gtime + timeTaken r.1 := by
  cases h with
  | completed hp _ he =>
    have hx := he.sched
    rw [hp.sched_eq] at hx
    exact (tick_clocked hc hi hx).2
  | halted hp _ =>
    show (_ : Scheduler).gtime = c.sched.gtime + 1
    rw [hp.sched_eq]
    exact (tick_clocked hc hi (.inl rfl)).2
  | breakpoint hp =>
    show (_ : Scheduler).gtime = c.sched.gtime + 0
    rw [hp.sched_eq, Int.add_zero]
  | device hs =>
    show (_ : Scheduler).gtime = c.sched.gtime + 0
    rw [hs, Int.add_zero]

/-- An instruction takes effect whole, or not at all. Executing the instruction at the counter
either completes it (its `Effect`, after tests that change only the breakpoint table and the
staged actions, then one instruction time), or halts (the counter moves past the HALT and one
instruction time passes, nothing else changes), or stops on a breakpoint or a device with the
machine exactly as it was and the scheduler untouched; no other stop can come of it. While the
machine runs, the clock moves by one for an instruction that ran and stays for a stop that came
before it. -/
theorem execute_takes_effect_or_stops_clean (m : Machine) (c : Context) :
    Executed m c (m.execute c) ∧
    (c.sched.Clocked → 0 < c.sched.interval →
      (m.execute c).2.2.gtime = c.gtime + timeTaken (m.execute c).1) :=
  ⟨executed_execute m c, fun hc hi => (executed_execute m c).gtime hc hi⟩

/-- A NOP on a fresh test bench, whose scheduler holds its three units and nothing queued. -/
theorem execute_takes_effect_or_stops_clean_of_nop :
    let c := (Machine.new (Context.new {} breakTypeTable)).2
    let m := (Machine.new (Context.new {} breakTypeTable)).1.load [.nop]
    c.sched.Clocked ∧ 0 < c.sched.interval ∧
      (Executed m c (m.execute c) ∧
        (m.execute c).2.2.gtime = c.gtime + timeTaken (m.execute c).1) := by
  intro c m
  have hs : c.sched = (((Scheduler.new {}).perform (.register "EXPECT")).perform
      (.register "STEP")).perform (.register "CONSOLE") := rfl
  have hreach : c.sched.Reach := by
    rw [hs]
    exact .perform _ (.perform _ (.perform _ (.new {} (by decide) (by decide)) trivial) trivial)
      trivial
  have hc := hreach.clocked
  have hi : 0 < c.sched.interval := by
    rw [hs]
    decide
  exact ⟨hc, hi, (execute_takes_effect_or_stops_clean m c).1,
    (execute_takes_effect_or_stops_clean m c).2 hc hi⟩

end SimControl.Bench.Machine
