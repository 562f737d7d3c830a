import SimControl.Address
import SimControl.Break.Kind
/-!
# Why the simulation stops

A run of the machine ends with a `Stop`: the operator asked for it, a step count or an expect
rule ran out, a breakpoint was hit, the machine halted, or a device failed. `Stop.text` is the
line the operator is shown.
-/

namespace SimControl

/-- The reason a run of the simulation ended. -/
inductive Stop where
  /-- The operator asked the simulation to stop. -/
  | userStop
  /-- The number of instructions asked for has run. -/
  | stepExpired
  /-- An expect rule matched and its delay ran out. -/
  | expectMatched
  /-- A breakpoint fired. -/
  | breakpoint (address : Address) (types : BreakTypes) (message : String)
  /-- The machine executed a HALT instruction at an address. -/
  | halted (address : Address)
  /-- A device reported a failure. -/
  | device (unit : String) (message : String)
  deriving DecidableEq

/-- The line that tells the operator why the simulation stopped. -/
def Stop.text : Stop → String
  | .userStop => "Simulation stopped"
  | .stepExpired => "Step expired"
  | .expectMatched => "Expect matched"
  | .breakpoint _ _ m => m
  | .halted a => "HALT instruction, PC: " ++ a.toOctal8
  | .device u m => u ++ ": " ++ m

end SimControl
