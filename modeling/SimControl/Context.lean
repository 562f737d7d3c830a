import SimControl.Event.Scheduler
import SimControl.Break.Table
import SimControl.Action
import SimControl.Expect
import SimControl.Send
import SimControl.Text.Case
/-!
# The simulation context

A `Context` holds what the command loop keeps between commands and lends to the machine while
it runs: the event scheduler, the breakpoint table, the pending actions, and the expect rules
and send queue of each line. Line 0 is the console.

The scheduler holds two units of the context's own from the start: the expect unit (unit 0),
which stops the simulation when an expect rule's delay has run out, and the step unit (unit 1),
which stops it when a step count has run out.
-/

namespace SimControl

/-- A line: its name, its expect rules and its send queue. -/
structure Line where
  name : String
  expect : Expectations
  send : SendQueue
  deriving DecidableEq

/-- The simulation context. -/
structure Context where
  config : Config
  sched : Scheduler
  breaks : BreakTable
  actions : ActionQueue
  lines : List Line

namespace Context

/-- The unit that stops the simulation when an expect rule's delay has run out. -/
def expectUnit : UnitId := ⟨0⟩

/-- The unit that stops the simulation when a step count has run out. -/
def stepUnit : UnitId := ⟨1⟩

/-- A line with no rules and nothing to send. -/
def newLine (c : Config) (name : String) : Line :=
  ⟨name, Expectations.new name, SendQueue.new name c.sendDefaultDelay⟩

/-- The index of the line with a name, matched regardless of the case of ASCII letters. -/
def findLine (c : Context) (name : String) : Option Nat :=
  c.lines.findIdx? fun l => Text.sameAscii l.name name

/-- The line with a name, added under its upper-cased name if there is none. -/
def addLine (c : Context) (name : String) : Nat × Context :=
  match c.findLine name with
  | some i => (i, c)
  | none => (c.lines.length, { c with lines := c.lines ++ [newLine c.config (Text.upperAscii name)] })

/-- A context with the console line and the two units of its own. -/
def new (cfg : Config) (tt : BreakTypeTable) : Context :=
  let s := ((Scheduler.new cfg).register "EXPECT").2
  let s := (s.register "STEP").2
  ({ config := cfg, sched := s, breaks := BreakTable.new tt, actions := {}, lines := [] } : Context).addLine
    "CONSOLE" |>.2

/-- The line a command names: the console if it names none. -/
def resolveLine (c : Context) : Option String → Except Fault Nat
  | none => .ok 0
  | some name =>
    match c.findLine name with
    | some i => .ok i
    | none => .error (.unknownLine name)

/-- The current simulated time. -/
def gtime (c : Context) : Int := c.sched.gtime

/-- Changes one line. -/
def modifyLine (c : Context) (i : Nat) (f : Line → Line) : Context :=
  { c with lines := c.lines.modify i f }

/-- Removes every breakpoint and every pending action. -/
def brkInit (c : Context) : Context :=
  { c with breaks := c.breaks.init, actions := c.actions.clear }

/-- Sets a breakpoint. -/
def brkSet (c : Context) (a : Address) (t : BreakTypes) (count : Nat) (action : Option String) :
    Except Fault Context :=
  (c.breaks.set a t count action).map fun b => { c with breaks := b }

/-- Tests for a breakpoint now; one that fires stages its action and stops the simulation. -/
def brkTest (c : Context) (a : Address) (t : BreakTypes) : Option Stop × Context :=
  match c.breaks.test a t c.gtime with
  | (none, b) => (none, { c with breaks := b })
  | (some hit, b) =>
    let c := { c with breaks := b }
    let c := match hit.action with
      | some act => { c with actions := c.actions.stage act }
      | none => c
    let message := b.lastMatchMessage.getD ("Breakpoint at " ++ a.toOctal8)
    (some (.breakpoint hit.address hit.types message), c)

/-- Stages the commands of an action. -/
def stageAction (c : Context) (action : String) : Context :=
  { c with actions := c.actions.stage action }

/-- Takes the next pending command. -/
def nextCommand (c : Context) : Option String × Context :=
  let (cmd, q) := c.actions.next
  (cmd, { c with actions := q })

/-- Defines an expect rule on a line. -/
def expSet (c : Context) (line : Nat) (pattern : String) (count after : Nat) (sw : Switches)
    (action : Option String) : Except Fault Context :=
  match c.lines[line]? with
  | none => .ok c
  | some l => (l.expect.set pattern count after sw action).map fun e =>
    c.modifyLine line fun l => { l with expect := e }

/-- Feeds an output byte of a line to its expect rules; a rule that fires stages its action
and queues the expect unit after the line's halt-after delay. -/
def expCheck (c : Context) (line : Nat) (byte : UInt8) : Context :=
  match c.lines[line]? with
  | none => c
  | some l =>
    let (m, e) := l.expect.check byte
    let c := c.modifyLine line fun l => { l with expect := e }
    match m with
    | none => c
    | some m =>
      let c := match m.action with
        | some act => { c with actions := c.actions.stage act }
        | none => c
      let delay := if m.afterInUsecs then c.config.usecsToInstructions m.after
        else min maxDelay m.after
      { c with sched := c.sched.activate expectUnit delay }

/-- Queues data for input on a line; with `usecs` the after and delay are microseconds. -/
def sendInput (c : Context) (line : Nat) (data : List UInt8) (after delay : Nat) (usecs : Bool) :
    Context :=
  let conv := fun (n : Nat) => if usecs then (c.config.usecsToInstructions n).toNat else n
  let now := c.gtime
  c.modifyLine line fun l => { l with send := l.send.input data (conv after) (conv delay) now }

/-- Polls a line's send queue now. -/
def sendPoll (c : Context) (line : Nat) : SendPoll × Context :=
  match c.lines[line]? with
  | none => (.idle, c)
  | some l =>
    let (p, q) := l.send.poll c.gtime
    (p, c.modifyLine line fun l => { l with send := q })

/-- Stops the simulation after a number of instruction times. -/
def step (c : Context) (count : Int) : Context :=
  { c with sched := c.sched.activateAbs stepUnit count }

/-- Forgets a step count that has not run out. -/
def cancelStep (c : Context) : Context :=
  { c with sched := c.sched.cancel stepUnit }

/-- Asks the simulation to stop. -/
def requestStop (c : Context) : Context := { c with sched := c.sched.requestStop }

/-- The context's own units stop the simulation; every other unit is the machine's. -/
def units {σ : Type} (machine : Scheduler.Reaction σ) : Scheduler.Reaction σ := fun u st s =>
  if u = expectUnit then (.error .expectMatched, st, s)
  else if u = stepUnit then (.error .stepExpired, st, s)
  else machine u st s

/-- Handles the end of the countdown with the machine's units. -/
def processEvent {σ : Type} (machine : Scheduler.Reaction σ) (extra : Nat) (st : σ) (c : Context) :
    Except Stop Unit × σ × Context :=
  let (r, st, s) := Scheduler.processEvent (units machine) extra st c.sched
  (r, st, { c with sched := s })

end Context

end SimControl
