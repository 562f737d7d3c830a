import Std.Data.TreeMap
import SimControl.Bench.Program
import SimControl.Context
import SimControl.Queue.Fifo
/-!
# The test bench machine

A tiny computer that drives the simulation context end to end. It executes one instruction
per unit of simulated time and tests breakpoints where a processor would:

* before each instruction, for execution (type E, debounce space 0) and for fetch (type N,
  space 1);
* before each data access, for reads (type R) and writes (type W), both in space 2.

It writes to a console that hands over one character every `characterTime` instruction times,
and reads console input queued with SEND. Data memory holds one signed 64-bit word per
address and reads as zero where nothing was stored.
-/

namespace SimControl.Bench

/-- Instruction times between successive console characters. -/
def characterTime : Int := 10

/-- The console: the unit that paces it, the characters waiting to go out, and those handed
over since they were last collected. -/
structure Console where
  unit : UnitId
  pending : Fifo UInt8
  emitted : List UInt8
  deriving DecidableEq

namespace Console

/-- Queues characters for output; the console unit is due one character time from now. -/
def write (con : Console) (s : Scheduler) (bytes : List UInt8) : Console × Scheduler :=
  let con := { con with pending := con.pending.pushAll bytes }
  (con, if con.pending.isEmpty then s else s.activate con.unit characterTime)

/-- Forgets the output not yet handed over. -/
def reset (con : Console) (s : Scheduler) : Console × Scheduler :=
  ({ con with pending := {} }, s.cancel con.unit)

/-- The console unit hands over one character and is due again while more wait; any other
unit of the machine has no business firing. -/
def react : Scheduler.Reaction Console := fun u con s =>
  if u ≠ con.unit then (.error (.device (s.name u) "unexpected event"), con, s)
  else
    let con := match con.pending.pop? with
      | none => con
      | some (b, rest) => { con with pending := rest, emitted := con.emitted ++ [b] }
    (.ok (), con, if con.pending.isEmpty then s else s.activate con.unit characterTime)

end Console

/-- The types tested before each instruction is executed. -/
def executeTypes : BreakTypes := (BreakTypes.letter? 'E').getD .empty

/-- The types tested when an instruction is fetched. -/
def fetchTypes : BreakTypes := (BreakTypes.letter? 'N').getD .empty

/-- The types tested before a data read. -/
def readTypes : BreakTypes := (BreakTypes.letter? 'R').getD .empty

/-- The types tested before a data write. -/
def writeTypes : BreakTypes := (BreakTypes.letter? 'W').getD .empty

/-- The machine: its program, data memory, registers, return stack and console. -/
structure Machine where
  program : Array Instruction
  /-- The words stored so far, by address. -/
  memory : Std.TreeMap Address Int64
  pc : Address
  acc : Int64
  /-- Return addresses, the innermost first. -/
  stack : List Address
  console : Console

/-- What a run of the machine leaves: why it stopped, the machine and context, and the
console output so far. -/
abbrev Outcome := Stop × Machine × Context × Array UInt8

namespace Machine

/-- A machine with no program, its console registered with the context's scheduler. -/
def new (c : Context) : Machine × Context :=
  let (u, s) := c.sched.register "CONSOLE"
  (⟨#[], ∅, Address.zero, 0, [], ⟨u, {}, []⟩⟩, { c with sched := s })

/-- Replaces the program and clears data memory. -/
def load (m : Machine) (program : List Instruction) : Machine :=
  { m with program := program.toArray, memory := ∅ }

/-- Puts the processor back in its initial state at `start`; memory is kept and console
output not yet handed over is dropped. -/
def reset (m : Machine) (c : Context) (start : Address) : Machine × Context :=
  let (con, s) := m.console.reset c.sched
  ({ m with pc := start, acc := 0, stack := [], console := con }, { c with sched := s })

/-- The word at an address. -/
def peek (m : Machine) (a : Address) : Int64 :=
  m.memory.getD a 0

/-- Stores a word at an address. -/
def poke (m : Machine) (a : Address) (v : Int64) : Machine :=
  { m with memory := m.memory.insert a v }

/-- The instruction at an address, if the program reaches that far. -/
def instructionAt (m : Machine) (a : Address) : Option Instruction := m.program[a.val]?

/-- Tests for a breakpoint of some types in a debounce space, unless there are none at all. -/
def checkBreak (c : Context) (a : Address) (t : BreakTypes) (space : Nat) : Option Stop × Context :=
  if c.breaks.summary.isEmpty then (none, c) else c.brkTest a (t.inSpace space)

/-- One instruction time passes. -/
def tick (m : Machine) (c : Context) : Except Stop Unit × Machine × Context :=
  (.ok (), m, { c with sched := c.sched.consume 1 })

/-- Executes the instruction at the program counter. A breakpoint that fires stops the
machine before the instruction takes effect. -/
def execute (m : Machine) (c : Context) : Except Stop Unit × Machine × Context :=
  let pc := m.pc
  match checkBreak c pc executeTypes 0 with
  | (some stop, c) => (.error stop, m, c)
  | (none, c) =>
  match checkBreak c pc fetchTypes 1 with
  | (some stop, c) => (.error stop, m, c)
  | (none, c) =>
  match m.instructionAt pc with
  | none => (.error (.device "CPU" ("no instruction at " ++ pc.toOctal8)), m, c)
  | some i =>
    let next := pc.successor
    match i with
    | .nop => tick { m with pc := next } c
    | .halt => (.error (.halted pc), { m with pc := next }, { c with sched := c.sched.consume 1 })
    | .print text =>
      let (con, s) := m.console.write c.sched text
      tick { m with console := con, pc := next } { c with sched := s }
    | .read =>
      match c.sendPoll 0 with
      | (.injected b, c) => tick { m with acc := Int64.ofNat b.toNat, pc := next } c
      | (.notYet, c) => tick m c
      | (.idle, c) => (.error (.device "CONSOLE" "no input available"), m, c)
    | .load a =>
      match checkBreak c a readTypes 2 with
      | (some stop, c) => (.error stop, m, c)
      | (none, c) => tick { m with acc := m.peek a, pc := next } c
    | .store a =>
      match checkBreak c a writeTypes 2 with
      | (some stop, c) => (.error stop, m, c)
      | (none, c) => tick { m.poke a m.acc with pc := next } c
    | .add n => tick { m with acc := m.acc + n, pc := next } c
    | .jump a => tick { m with pc := a } c
    | .jumpNonzero a => tick { m with pc := if m.acc != 0 then a else next } c
    | .call a => tick { m with stack := next :: m.stack, pc := a } c
    | .ret =>
      match m.stack with
      | a :: rest => tick { m with stack := rest, pc := a } c
      | [] => (.error (.device "CPU" ("RETURN with empty stack at " ++ pc.toOctal8)), m, c)

/-- One slice of a run: when the countdown has run out the due units fire and the characters
the console handed over go to the output and to the console's expect rules; otherwise one
instruction executes. -/
def runSlice (m : Machine) (c : Context) (out : Array UInt8) :
    Except Stop Unit × Machine × Context × Array UInt8 :=
  if c.sched.interval ≤ 0 then
    let (status, con, c) := c.processEvent Console.react 0 m.console
    let emitted := con.emitted
    let c := emitted.foldl (fun c b => c.expCheck 0 b) c
    (status, { m with console := { con with emitted := [] } }, c, out ++ emitted.toArray)
  else
    let (r, m, c) := m.execute c
    (r, m, c, out)

/-- Runs slices until something stops the simulation; when the fuel runs out first, the run
ends as if the operator had stopped it. -/
def run : Nat → Machine → Context → Array UInt8 → Outcome
  | 0, m, c, out => (.userStop, m, c, out)
  | fuel + 1, m, c, out =>
    match m.runSlice c out with
    | (.error stop, m, c, out) => (stop, m, c, out)
    | (.ok (), m, c, out) => run fuel m c out

end Machine

end SimControl.Bench
