/-!
# Settings

The settings chosen before a simulation starts: how long the clock runs when nothing is
queued, how many instructions the machine executes per simulated second, and the default
pacing of send data.

* `Config.usecsToInstructions` converts microseconds into instruction times through a 64-bit
  product, rounding down and saturating at the largest 32-bit signed delay.
-/

namespace SimControl

/-- The largest delay a 32-bit signed word holds. -/
def maxDelay : Int := 2147483647

/-- The smallest delay a 32-bit signed word holds. -/
def minDelay : Int := -2147483648

/-- Clamps a number into the range of a 32-bit signed word. -/
def clampDelay (n : Int) : Int := max minDelay (min maxDelay n)

/-- Simulator settings. -/
structure Config where
  /-- Instruction times the clock runs when no event is queued (a 32-bit signed value). -/
  noqueueWait : Int := 1000000
  /-- Instructions per simulated second (a 32-bit unsigned value). -/
  instructionsPerSecond : Nat := 1000000
  /-- The pacing, in instruction times, of send data that names no delay. -/
  sendDefaultDelay : Nat := 1000
  deriving DecidableEq

namespace Config

instance : Inhabited Config := ⟨{}⟩

/-- Instruction times in a number of microseconds at the configured rate. The product with the
rate is taken in a 64-bit word and divided by a million, rounding down; a quotient beyond the
largest 32-bit signed delay saturates to it. -/
def usecsToInstructions (c : Config) (usecs : Nat) : Int :=
  let instructions : UInt64 := usecs.toUInt64 * c.instructionsPerSecond.toUInt64 / 1000000
  min maxDelay (instructions.toNat : Int)

theorem usecsToInstructions_nonneg (c : Config) (usecs : Nat) :
    0 ≤ c.usecsToInstructions usecs := by
  simp only [usecsToInstructions, maxDelay]
  omega

end Config

end SimControl
