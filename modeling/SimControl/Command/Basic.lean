import SimControl.Command.Target
import SimControl.Break.Kind
/-!
# Commands

The commands of the simulator's command language, as read from one line. Keywords may be
abbreviated down to a minimum length and are matched without regard to case; that reading is
in `SimControl.Command.Parse`.
-/

namespace SimControl.Command

/-- What GO waits for before it stops. -/
inductive Until where
  /-- The machine is about to execute the instruction at an address. -/
  | address (a : Address)
  /-- The console has printed a quoted string. -/
  | output (quoted : String)
  deriving DecidableEq

/-- What SHOW reports. -/
inductive ShowItem where
  /-- Breakpoints at the listed addresses; an empty list means every breakpoint. -/
  | breaks (targets : List BreakTarget)
  /-- The expect rules of a line, or the one with a pattern. -/
  | expect (line : Option String) (pattern : Option String)
  /-- The pending send data of a line. -/
  | send (line : Option String)
  /-- The event queue. -/
  | queue
  /-- The simulated time. -/
  | time
  deriving DecidableEq

end SimControl.Command

namespace SimControl

/-- One command of the command language. -/
inductive Command where
  /-- A blank line or a comment. -/
  | blank
  /-- Set breakpoints; an empty target list means the program counter. -/
  | setBreak (types : BreakTypes) (targets : List Command.BreakTarget) (action : Option String)
  /-- Clear breakpoints; an empty target list means the program counter. -/
  | clearBreak (types : BreakTypes) (targets : List Command.BreakTarget)
  /-- Define an expect rule on a line. -/
  | expect (switches : Switches) (line : Option String) (count haltAfter : Nat)
      (pattern : String) (action : Option String)
  /-- Remove one or all expect rules of a line. -/
  | noExpect (line : Option String) (pattern : Option String)
  /-- Queue data for input on a line. -/
  | send (switches : Switches) (line : Option String) (after delay : Nat) (data : String)
  /-- Drop the pending send data of a line. -/
  | noSend (line : Option String)
  /-- Report part of the simulator's state. -/
  | report (item : Command.ShowItem)
  /-- Execute a number of instructions. -/
  | step (n : Nat)
  /-- Execute a number of instructions, each subroutine call as one. -/
  | stepOver (n : Nat)
  /-- Run from an address or the program counter, perhaps until a condition. -/
  | go (start : Option Address) (cond : Option Command.Until)
  /-- Reset the machine and run from an address or zero. -/
  | run (start : Option Address)
  /-- Run on from where the machine stopped. -/
  | resume
  /-- Load a program file. -/
  | load (file : String)
  /-- Execute the commands of a file. -/
  | runFile (file : String)
  /-- Print a text. -/
  | echo (text : String)
  /-- Leave the simulator. -/
  | exit
  deriving DecidableEq

end SimControl
