import SimControl.Bench.Machine
import SimControl.Command.Parse
import SimControl.Volume
import SimControl.Text.Lines
/-!
# The command loop

A `Session` owns the simulation context and the test bench machine, and executes commands
read from the operator, from DO files, and from the actions of breakpoints and expect rules.

* A failing command changes nothing after the point where it failed; what it did before that
  stays done.
* A DO file runs its lines in order; the actions staged so far run before each line, and the
  first failing line ends the file and every DO file around it. DO files nest at most
  `maxNesting` deep.
* The actions staged by breakpoints and expect rules run after each command, each echoed
  behind the prompt unless the session is quiet; a failing action is reported and the rest
  still run.
* Every run of the machine ends with a line saying why it stopped.

What the session writes goes to two buffers, the standard output and the standard error.
Each loop of the interpreter is bounded by fuel, `workBudget` for commands and `sliceBudget`
for the slices of one run of the machine; both are far beyond anything an operator waits for.
-/

namespace SimControl

open Bench

/-- The interpreter's state. -/
structure Session where
  ctx : Context
  machine : Machine
  /-- The files the session can read. -/
  volume : Volume
  /-- The file system around the working directory. -/
  host : Host
  /-- Do not echo the commands of actions. -/
  quiet : Bool
  /-- How many DO files are running. -/
  depth : Nat
  exitRequested : Bool
  /-- Standard output written so far. -/
  out : Array UInt8
  /-- Standard error written so far. -/
  err : String

/-- A computation of the interpreter: it may fail with a fault, keeping the state changes made
before the failure. -/
abbrev SessionM := EStateM Fault Session

namespace Session

/-- How deeply DO files may nest. -/
def maxNesting : Nat := 20

/-- The most addresses one range may set breakpoints on. -/
def maxBreakRange : Nat := 0o10000

/-- The prompt, also put before the echo of an action's command. -/
def prompt : String := "scp> "

/-- The bound on nested and successive commands. -/
def workBudget : Nat := 16777216

/-- The bound on the slices of one run of the machine. -/
def sliceBudget : Nat := 4294967296

/-- A fresh interpreter over a working directory, on a Linux host unless another is given. -/
def new (cfg : Config) (quiet : Bool) (volume : Volume) (host : Host := .linux) : Session :=
  let (m, c) := Machine.new (Context.new cfg Bench.breakTypeTable)
  ⟨c, m, volume, host, quiet, 0, false, #[], ""⟩

/-- Fails with the fault of a result that is one. -/
def orFail {α : Type} : Except Fault α → SessionM α
  | .ok a => pure a
  | .error e => throw e

/-- Writes a text to the standard output. -/
def say (text : String) : SessionM Unit :=
  modify fun s => { s with out := s.out ++ text.toUTF8.data }

/-- Reports a fault on the standard error. -/
def complain (e : Fault) : SessionM Unit :=
  modify fun s => { s with err := s.err ++ "Error: " ++ e.message ++ "\n" }

/-- Changes the context. -/
def modifyContext (f : Context → Context) : SessionM Unit :=
  modify fun s => { s with ctx := f s.ctx }

/-- Changes the context by a change that may fail. -/
def updateContext (f : Context → Except Fault Context) : SessionM Unit := do
  let c ← orFail (f (← get).ctx)
  modify fun s => { s with ctx := c }

/-- The line a command names, the console if it names none. -/
def resolveLine (name : Option String) : SessionM Nat := do
  orFail ((← get).ctx.resolveLine name)

/-- The text of a file. -/
def readText (path : String) : SessionM String := do
  let s ← get
  match s.volume.readText s.host path with
  | .ok text => pure text
  | .error e => throw (.unreadable path e.message)

/-- Puts the machine back in its initial state at `start`, its breakpoints ready to match
again. -/
def resetAt (start : Address) : SessionM Unit :=
  modify fun s =>
    let (m, c) := s.machine.reset s.ctx start
    { s with machine := m, ctx := { c with breaks := c.breaks.newPc 0 } }

/-- Loads a program file and resets the machine at address zero. -/
def loadProgram (path : String) : SessionM Unit := do
  let text ← readText path
  match parseProgram text with
  | .error e => throw (.badArgument (path ++ ": " ++ e.message))
  | .ok program =>
    modify fun s => { s with machine := s.machine.load program }
    resetAt Address.zero

/-- Runs the machine until something stops it; its console output goes to the standard
output. -/
def runMachine : SessionM Stop :=
  modifyGet fun s =>
    let (stop, m, c, out) := s.machine.run sliceBudget s.ctx s.out
    (stop, { s with machine := m, ctx := c, out := out })

/-- Says why the machine stopped. A stop at a step-over breakpoint is the end of a step. -/
def reportStop (stop : Stop) : SessionM Unit := do
  let pc := (← get).machine.pc
  let message := match stop with
    | .breakpoint _ t m => if t.intersects BreakTypes.stepOver then "Step expired, PC: " ++ pc.toOctal8 else m
    | .halted _ => stop.text
    | _ => stop.text ++ ", PC: " ++ pc.toOctal8
  say ("\n" ++ message ++ "\n")

/-- The ranges of a target list with their counts; ALL has no place here. -/
def ranges (targets : List Command.BreakTarget) : Except Fault (List (Address × Address × Nat)) :=
  targets.mapM fun t =>
    match t.range with
    | .all => .error (.badArgument "ALL")
    | .span low high => .ok (low, high, t.count)

/-- Every address of some ranges with its count; no range may hold `maxBreakRange` addresses
or more. -/
def rangeAddresses : List (Address × Address × Nat) → Except Fault (List (Address × Nat))
  | [] => .ok []
  | (low, high, count) :: rest =>
    if high.val - low.val ≥ maxBreakRange then .error (.rangeTooLarge low high)
    else
      let here := (List.range (high.val - low.val + 1)).map fun i => (Address.ofNat (low.val + i), count)
      (here ++ ·) <$> rangeAddresses rest

/-- Every address a target list names, with its count. -/
def addresses (targets : List Command.BreakTarget) : Except Fault (List (Address × Nat)) :=
  ranges targets >>= rangeAddresses

/-- Whether a target is ALL. -/
def isAll (t : Command.BreakTarget) : Bool :=
  match t.range with
  | .all => true
  | .span _ _ => false

/-- BREAK: sets a breakpoint at each address named, or at the program counter if none is. -/
def setBreakpoints (types : BreakTypes) (targets : List Command.BreakTarget)
    (action : Option String) : SessionM Unit := do
  if targets.isEmpty then
    let pc := (← get).machine.pc
    updateContext fun c => c.brkSet pc types 0 action
  else
    let list ← orFail (addresses targets)
    list.forM fun (a, count) => updateContext fun c => c.brkSet a types count action

/-- NOBREAK: clears breakpoints at the program counter, everywhere, or in the ranges named. -/
def clearBreakpoints (types : BreakTypes) (targets : List Command.BreakTarget) : SessionM Unit := do
  if targets.isEmpty then
    let pc := (← get).machine.pc
    modifyContext fun c => { c with breaks := c.breaks.clear pc types }
  else if targets.any isAll then
    modifyContext fun c => { c with breaks := c.breaks.clearAll types }
  else
    let rs ← orFail (ranges targets)
    rs.forM fun (low, high, _) =>
      modifyContext fun c =>
        { c with breaks := (c.breaks.addressesIn low high).foldl (fun b a => b.clear a types) c.breaks }

/-- The SHOW BREAK report for a target list. -/
def breakReport (c : Context) (targets : List Command.BreakTarget) : Except Fault String :=
  if targets.isEmpty || targets.any isAll then .ok (c.breaks.showAll BreakTypes.empty)
  else
    (ranges targets).map fun rs =>
      String.join (rs.flatMap fun (low, high, _) =>
        (c.breaks.addressesIn low high).filterMap fun a =>
          (c.breaks.show? a BreakTypes.empty).map (· ++ "\n"))

/-- SHOW: reports part of the state. -/
def showItem (item : Command.ShowItem) : SessionM Unit := do
  let c := (← get).ctx
  let text ← match item with
    | .breaks targets => orFail (breakReport c targets)
    | .expect line pattern => do
      let i ← resolveLine line
      pure ((c.lines[i]?.map fun l => l.expect.report pattern).getD "")
    | .send line => do
      let i ← resolveLine line
      pure ((c.lines[i]?.map fun l => l.send.describe c.gtime).getD "")
    | .queue => pure c.sched.render
    | .time => pure ("Time:\t" ++ toString c.gtime ++ "\n")
  say text

/-- Runs the machine for a number of instruction times. -/
def runFor (n : Int) : SessionM Stop := do
  modifyContext (·.step n)
  let stop ← runMachine
  modifyContext (·.cancelStep)
  pure stop

/-- One step of NEXT: a subroutine call runs until it returns to the next instruction, any
other instruction runs alone. -/
def stepOverOnce : SessionM Stop := do
  let m := (← get).machine
  match m.instructionAt m.pc with
  | some (.call _) =>
    updateContext fun c => c.brkSet m.pc.successor BreakTypes.stepOver 0 none
    let stop ← runMachine
    modifyContext fun c => { c with breaks := c.breaks.clearAll BreakTypes.stepOver }
    pure stop
  | _ => runFor 1

/-- Whether a stop is the end of a step. -/
def stepped : Stop → Bool
  | .stepExpired => true
  | .breakpoint _ t _ => t.intersects BreakTypes.stepOver
  | _ => false

/-- NEXT: steps over a number of instructions, stopping early at anything else. -/
def stepOverTimes : Nat → SessionM Unit
  | 0 => reportStop .stepExpired
  | n + 1 => do
    let stop ← stepOverOnce
    if !stepped stop || (← get).exitRequested then reportStop stop else stepOverTimes n

/-- GO: runs from an address or the program counter, perhaps until the machine is about to
execute an address or the console has printed a text. -/
def go (start : Option Address) (cond : Option Command.Until) : SessionM Unit := do
  let temporary ← match cond with
    | none => pure none
    | some (.address a) => do
      updateContext fun c => c.brkSet a (BreakTypes.temp.union c.breaks.typeTable.defaultTypes) 0 none
      pure none
    | some (.output pattern) => do
      let c := (← get).ctx
      -- A temporary rule would replace, then delete, a rule of the operator's for the pattern.
      if (c.lines[0]?.bind fun l => l.expect.find? pattern).isSome then
        throw (.expectRuleExists pattern)
      updateContext fun c => c.expSet 0 pattern 0 0 Switches.empty none
      pure (some pattern)
  match start with
  | some a =>
    modify fun s => { s with machine := { s.machine with pc := a },
                             ctx := { s.ctx with breaks := s.ctx.breaks.newPc 0 } }
  | none => pure ()
  let stop ← runMachine
  modifyContext fun c => { c with breaks := c.breaks.clearAll BreakTypes.temp }
  match temporary with
  | some pattern => modifyContext fun c => c.modifyLine 0 fun l => { l with expect := l.expect.clear pattern }
  | none => pure ()
  reportStop stop

/-- Removes one or every expect rule of a line. -/
def clearExpect (i : Nat) (pattern : Option String) : SessionM Unit :=
  modifyContext fun c => c.modifyLine i fun l =>
    { l with expect := match pattern with
      | some p => l.expect.clear p
      | none => l.expect.clearAll }

/-- Takes the next staged command of an action, unless exit was asked for. -/
def nextAction : SessionM (Option String) :=
  modifyGet fun s =>
    if s.exitRequested then (none, s)
    else
      let (cmd, c) := s.ctx.nextCommand
      (cmd, { s with ctx := c })

/-- Runs a computation and hands back its fault instead of failing. -/
def attempt (x : SessionM Unit) : SessionM (Except Fault Unit) :=
  tryCatch (do x; pure (.ok ())) fun e => pure (.error e)

mutual

/-- Executes one command line. -/
def execute : Nat → String → SessionM Unit
  | 0, _ => pure ()
  | fuel + 1, text => do
    match ← orFail (Command.parse text) with
    | .blank => pure ()
    | .setBreak types targets action => setBreakpoints types targets action
    | .clearBreak types targets => clearBreakpoints types targets
    | .expect sw line count after pattern action => do
      let i ← resolveLine line
      updateContext fun c => c.expSet i pattern count after sw action
    | .noExpect line pattern => do
      let i ← resolveLine line
      clearExpect i pattern
    | .send sw line after delay data => do
      let i ← resolveLine line
      let bytes ← orFail ((Text.Quoted.decode data).mapError .invalidQuotedString)
      modifyContext fun c => c.sendInput i bytes after delay (sw.contains usecsSwitch)
    | .noSend line => do
      let i ← resolveLine line
      modifyContext fun c => c.modifyLine i fun l => { l with send := l.send.clear }
    | .report item => showItem item
    | .step n => do
      let stop ← runFor (min (n : Int) maxDelay)
      reportStop stop
    | .stepOver n => stepOverTimes n
    | .go start cond => go start cond
    | .run start => do
      resetAt (start.getD Address.zero)
      let stop ← runMachine
      reportStop stop
    | .resume => do
      let stop ← runMachine
      reportStop stop
    | .load file => loadProgram file
    | .runFile file => doFile fuel file
    | .echo t => say (t ++ "\n")
    | .exit => modify fun s => { s with exitRequested := true }

/-- Executes the commands of a file; the first failing command ends it. -/
def doFile : Nat → String → SessionM Unit
  | 0, _ => pure ()
  | fuel + 1, path => do
    if (← get).depth ≥ maxNesting then throw (.nestingTooDeep maxNesting)
    let text ← readText path
    modify fun s => { s with depth := s.depth + 1 }
    let r ← attempt (executeLines fuel (Text.textLines text))
    modify fun s => { s with depth := s.depth - 1 }
    orFail r

/-- Executes lines in order, the staged actions before each, until one fails or exit is
asked for. -/
def executeLines : Nat → List String → SessionM Unit
  | 0, _ => pure ()
  | _, [] => pure ()
  | fuel + 1, line :: rest => do
    runPendingActions fuel
    if (← get).exitRequested then pure ()
    else
      execute fuel line
      executeLines fuel rest

/-- Runs the commands staged by actions, each echoed unless the session is quiet; a failing
one is reported and the rest still run. -/
def runPendingActions : Nat → SessionM Unit
  | 0 => pure ()
  | fuel + 1 => do
    match ← nextAction with
    | none => pure ()
    | some cmd =>
      if !(← get).quiet then say (prompt ++ cmd ++ "\n")
      match ← attempt (execute fuel cmd) with
      | .error e => complain e
      | .ok () => pure ()
      runPendingActions fuel

end

/-- Executes one command line, with all the work it sets off. -/
def command (line : String) : SessionM Unit := execute workBudget line

/-- Runs the staged actions. -/
def pendingActions : SessionM Unit := runPendingActions workBudget

/-- Executes the commands of a file, as a script given at start-up. -/
def script (path : String) : SessionM Unit := doFile workBudget path

/-- Runs a computation on a state, with its result or fault and the state it leaves. -/
def exec (x : SessionM Unit) (s : Session) : Except Fault Unit × Session :=
  match x.run s with
  | .ok _ s => (.ok (), s)
  | .error e s => (.error e, s)

/-- Hands over what was written to the standard output and error since the last time. -/
def drain (s : Session) : (List UInt8 × String) × Session :=
  ((s.out.toList, s.err), { s with out := #[], err := "" })

/-- What one line of input led to. -/
structure Reply where
  result : Except Fault Unit
  /-- What the command wrote to the standard output. -/
  out : List UInt8
  /-- What the command wrote to the standard error, for actions of DO files that failed. -/
  err : String
  /-- What the actions run after the command wrote to the standard output. -/
  actionsOut : List UInt8
  /-- What those actions wrote to the standard error. -/
  actionsErr : String
  exit : Bool

/-- Executes one line of input and then the actions it staged, as the command loop does
before it reads the next line. -/
def respond (s : Session) (line : String) : Reply × Session :=
  let (r, s) := exec (command line) s
  let ((out, err), s) := drain s
  let (_, s) := exec pendingActions s
  let ((actionsOut, actionsErr), s) := drain s
  (⟨r, out, err, actionsOut, actionsErr, s.exitRequested⟩, s)

/-- What starting the interpreter led to. -/
structure Startup where
  /-- How loading the program went, if one was given. -/
  program : Option (Except Fault Unit)
  /-- How running the script went, if one was given. -/
  script : Option (Except Fault Unit)
  /-- What the script wrote to the standard output. -/
  scriptOut : List UInt8
  /-- What the script wrote to the standard error, for actions of DO files that failed. -/
  scriptErr : String
  /-- Exit was asked for by the end of the script. -/
  scriptExit : Bool
  /-- What the actions staged by then wrote to the standard output. -/
  actionsOut : List UInt8
  /-- What those actions wrote to the standard error. -/
  actionsErr : String

/-- Starts the interpreter: loads the program, runs the script, and unless the script asked
to exit, runs the actions staged by then, as the command loop does before it reads its first
line. -/
def begin (s : Session) (program script : Option String) : Startup × Session :=
  let (loaded, s) := match program with
    | some p => let (r, s) := exec (loadProgram p) s; (some r, s)
    | none => (none, s)
  let (ran, s) := match script with
    | some f => let (r, s) := exec (Session.script f) s; (some r, s)
    | none => (none, s)
  let ((scriptOut, scriptErr), s) := drain s
  let scriptExit := s.exitRequested
  let ((actionsOut, actionsErr), s) :=
    if scriptExit then (([], ""), s) else drain (exec pendingActions s).2
  (⟨loaded, ran, scriptOut, scriptErr, scriptExit, actionsOut, actionsErr⟩, s)

end Session

end SimControl
