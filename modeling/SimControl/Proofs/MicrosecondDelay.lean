import SimControl.Proofs.ConsolePacing
import SimControl.Proofs.ExpectFiring
/-!
# Delays in microseconds

A delay given in microseconds becomes instruction times at the configured rate: the product of
the delay and the rate is taken in a 64-bit word, divided by a million, and narrowed to a 32-bit
signed delay, saturating. Both factors are 32-bit unsigned values, so the product never wraps
and the conversion is the exact quotient rounded down, capped at the largest delay
(`usecsToInstructions_eq`). It is never negative and grows with the delay and with the rate.

Its callers narrow it again or queue a unit after it. The send queue is handed exactly the
converted times (`sendInput_usecs`), a unit activated after some microseconds is due that many
instruction times from now (`get?_activateAfter_self`), and the expect unit is never due before
the instant at which a rule fired (`expCheck_due_not_before_now`).
-/

namespace SimControl

namespace Config

variable {c c' : Config} {usecs usecs' : Nat}

/-- The exact conversion: the quotient of the product by a million, rounded down and capped at
the largest 32-bit signed delay. -/
def exactInstructions (c : Config) (usecs : Nat) : Nat :=
  min (2 ^ 31 - 1) (usecs * c.instructionsPerSecond / 10 ^ 6)

theorem mul_lt_two_pow_64 {a b : Nat} (ha : a < 2 ^ 32) (hb : b < 2 ^ 32) : a * b < 2 ^ 64 :=
  calc a * b < 2 ^ 32 * 2 ^ 32 := Nat.mul_lt_mul'' ha hb
    _ = 2 ^ 64 := by norm_num

/-- For a delay and a rate that are 32-bit values the 64-bit product does not wrap, so the
conversion is the exact one. -/
theorem usecsToInstructions_eq (hu : usecs < 2 ^ 32) (hr : c.instructionsPerSecond < 2 ^ 32) :
    c.usecsToInstructions usecs = c.exactInstructions usecs := by
  have hprod := mul_lt_two_pow_64 hu hr
  have hword : (usecs.toUInt64 * c.instructionsPerSecond.toUInt64 / 1000000).toNat =
      usecs * c.instructionsPerSecond / 10 ^ 6 := by
    have hu' : usecs < 2 ^ 64 := by omega
    have hr' : c.instructionsPerSecond < 2 ^ 64 := by omega
    rw [UInt64.toNat_div, UInt64.toNat_mul, Nat.toUInt64_eq, Nat.toUInt64_eq, UInt64.toNat_ofNat',
      UInt64.toNat_ofNat', Nat.mod_eq_of_lt hu', Nat.mod_eq_of_lt hr', Nat.mod_eq_of_lt hprod]
    rfl
  simp only [usecsToInstructions, hword, exactInstructions, maxDelay]
  omega

/-- The largest delay at two instructions a microsecond saturates. -/
example : ({ instructionsPerSecond := 2000000 } : Config).usecsToInstructions 4294967295 = 2147483647 := by
  decide

theorem exactInstructions_mono_usecs (h : usecs ≤ usecs') :
    c.exactInstructions usecs ≤ c.exactInstructions usecs' :=
  min_le_min_left _ (Nat.div_le_div_right (Nat.mul_le_mul_right _ h))

theorem exactInstructions_mono_rate (h : c.instructionsPerSecond ≤ c'.instructionsPerSecond) :
    c.exactInstructions usecs ≤ c'.exactInstructions usecs :=
  min_le_min_left _ (Nat.div_le_div_right (Nat.mul_le_mul_left _ h))

/-- A longer delay converts to no fewer instruction times. -/
theorem usecsToInstructions_mono_usecs (h : usecs ≤ usecs') (hu' : usecs' < 2 ^ 32)
    (hr : c.instructionsPerSecond < 2 ^ 32) :
    c.usecsToInstructions usecs ≤ c.usecsToInstructions usecs' := by
  rw [usecsToInstructions_eq (Nat.lt_of_le_of_lt h hu') hr, usecsToInstructions_eq hu' hr]
  exact Int.ofNat_le.mpr (exactInstructions_mono_usecs h)

/-- A faster machine converts a delay to no fewer instruction times. -/
theorem usecsToInstructions_mono_rate (h : c.instructionsPerSecond ≤ c'.instructionsPerSecond)
    (hu : usecs < 2 ^ 32) (hr' : c'.instructionsPerSecond < 2 ^ 32) :
    c.usecsToInstructions usecs ≤ c'.usecsToInstructions usecs := by
  rw [usecsToInstructions_eq hu (Nat.lt_of_le_of_lt h hr'), usecsToInstructions_eq hu hr']
  exact Int.ofNat_le.mpr (exactInstructions_mono_rate h)

end Config

namespace Context

/-- Times given in microseconds reach the send queue as the exact conversion: the narrowing of
a conversion that is never negative never falls back to zero. -/
theorem sendInput_usecs (c : Context) (line : Nat) (data : List UInt8) {after delay : Nat}
    (ha : after < 2 ^ 32) (hd : delay < 2 ^ 32) (hr : c.config.instructionsPerSecond < 2 ^ 32) :
    c.sendInput line data after delay true =
      c.sendInput line data (c.config.exactInstructions after) (c.config.exactInstructions delay)
        false := by
  simp only [sendInput, if_true, Bool.false_eq_true, if_false,
    Config.usecsToInstructions_eq ha hr, Config.usecsToInstructions_eq hd hr, Int.toNat_natCast]

/-- An idle expect unit queued by a rule that fires is due no earlier than the instant at
which it fired. -/
theorem expCheck_due_not_before_now {c : Context} {line : Nat} {byte : UInt8} {l : Line}
    {m : ExpectMatch} (hl : c.lines[line]? = some l) (hm : (l.expect.check byte).1 = some m)
    (hidle : c.sched.isActive expectUnit = false) :
    ∃ due, (c.expCheck line byte).sched.queue.get? expectUnit = some due ∧
      c.sched.gtime ≤ due.time := by
  rw [sched_expCheck_of_match hl hm, Scheduler.get?_activate_self hidle]
  exact ⟨_, rfl, Int.le_add_of_nonneg_right (expectDelay_nonneg c m.afterInUsecs m.after)⟩

end Context

namespace Scheduler

/-- An idle unit activated after some microseconds is due the exact conversion of them from
now. -/
theorem get?_activateAfter_self (s : Scheduler) {u : UnitId} (hidle : s.isActive u = false)
    {usecs : Nat} (hu : usecs < 2 ^ 32) (hr : s.config.instructionsPerSecond < 2 ^ 32) :
    (s.activateAfter u usecs).queue.get? u =
      some ⟨s.gtime + s.config.exactInstructions usecs, s.nextSeq⟩ := by
  rw [activateAfter, get?_activate_self hidle, Config.usecsToInstructions_eq hu hr]

end Scheduler

/-- Microseconds convert to instruction times exactly. For a delay and a rate that are 32-bit
unsigned values, their product fits a 64-bit word, so the conversion is the quotient of the
product by a million rounded down and capped at the largest 32-bit signed delay. It is never
negative and grows with the delay and with the rate. So times given to SEND in microseconds
reach the send queue converted exactly, never as the zero a refused narrowing would give; an
idle unit activated after some microseconds is due that conversion from now; and an idle expect
unit queued by a rule that fires is never due before the instant it fired. -/
theorem usecs_convert_exactly (c : Config) (usecs : Nat) (hu : usecs < 2 ^ 32)
    (hr : c.instructionsPerSecond < 2 ^ 32) :
    usecs * c.instructionsPerSecond < 2 ^ 64 ∧
    c.usecsToInstructions usecs = (min (2 ^ 31 - 1) (usecs * c.instructionsPerSecond / 10 ^ 6) : Nat) ∧
    0 ≤ c.usecsToInstructions usecs ∧
    (∀ usecs', usecs ≤ usecs' → usecs' < 2 ^ 32 →
      c.usecsToInstructions usecs ≤ c.usecsToInstructions usecs') ∧
    (∀ c' : Config, c.instructionsPerSecond ≤ c'.instructionsPerSecond →
      c'.instructionsPerSecond < 2 ^ 32 → c.usecsToInstructions usecs ≤ c'.usecsToInstructions usecs) ∧
    (∀ (ctx : Context) line data delay, ctx.config = c → delay < 2 ^ 32 →
      ctx.sendInput line data usecs delay true =
        ctx.sendInput line data (c.exactInstructions usecs) (c.exactInstructions delay) false) ∧
    (∀ (s : Scheduler) u, s.config = c → s.isActive u = false →
      (s.activateAfter u usecs).queue.get? u = some ⟨s.gtime + c.exactInstructions usecs, s.nextSeq⟩) ∧
    (∀ (ctx : Context) line byte l m, ctx.config = c → ctx.lines[line]? = some l →
      (l.expect.check byte).1 = some m → ctx.sched.isActive Context.expectUnit = false →
      ∃ due, (ctx.expCheck line byte).sched.queue.get? Context.expectUnit = some due ∧
        ctx.sched.gtime ≤ due.time) := by
  have hexact := Config.usecsToInstructions_eq hu hr
  refine ⟨Config.mul_lt_two_pow_64 hu hr, hexact, hexact ▸ Int.natCast_nonneg _,
    fun _ h hu' => Config.usecsToInstructions_mono_usecs h hu' hr,
    fun _ h hr' => Config.usecsToInstructions_mono_rate h hu hr', ?_, ?_, ?_⟩
  · rintro ctx line data delay rfl hd
    exact ctx.sendInput_usecs line data hu hd hr
  · rintro s u rfl hidle
    exact s.get?_activateAfter_self hidle hu hr
  · rintro ctx line byte l m - hl hm hidle
    exact Context.expCheck_due_not_before_now hl hm hidle

/-- At the default rate of a million instructions a second, 250 microseconds are within range. -/
theorem usecs_convert_exactly_of_default :
    let c : Config := {}
    250 < 2 ^ 32 ∧ c.instructionsPerSecond < 2 ^ 32 ∧
    (250 * c.instructionsPerSecond < 2 ^ 64 ∧
    c.usecsToInstructions 250 = (min (2 ^ 31 - 1) (250 * c.instructionsPerSecond / 10 ^ 6) : Nat) ∧
    0 ≤ c.usecsToInstructions 250 ∧
    (∀ usecs', 250 ≤ usecs' → usecs' < 2 ^ 32 →
      c.usecsToInstructions 250 ≤ c.usecsToInstructions usecs') ∧
    (∀ c' : Config, c.instructionsPerSecond ≤ c'.instructionsPerSecond →
      c'.instructionsPerSecond < 2 ^ 32 → c.usecsToInstructions 250 ≤ c'.usecsToInstructions 250) ∧
    (∀ (ctx : Context) line data delay, ctx.config = c → delay < 2 ^ 32 →
      ctx.sendInput line data 250 delay true =
        ctx.sendInput line data (c.exactInstructions 250) (c.exactInstructions delay) false) ∧
    (∀ (s : Scheduler) u, s.config = c → s.isActive u = false →
      (s.activateAfter u 250).queue.get? u = some ⟨s.gtime + c.exactInstructions 250, s.nextSeq⟩) ∧
    (∀ (ctx : Context) line byte l m, ctx.config = c → ctx.lines[line]? = some l →
      (l.expect.check byte).1 = some m → ctx.sched.isActive Context.expectUnit = false →
      ∃ due, (ctx.expCheck line byte).sched.queue.get? Context.expectUnit = some due ∧
        ctx.sched.gtime ≤ due.time)) := by
  intro c
  exact ⟨by norm_num, by decide, usecs_convert_exactly c 250 (by norm_num) (by decide)⟩

end SimControl
