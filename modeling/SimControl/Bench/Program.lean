import SimControl.Command.Token
import SimControl.Address
import SimControl.Text.Quoted
import SimControl.Text.Blank
import SimControl.Text.Lines
import SimControl.Break.Kind
/-!
# Test bench programs

The test bench is a tiny computer that drives the simulator end to end. Its programs are
text, one instruction per line, loaded at address 0. Blank lines and lines starting with `;`
or `#` are skipped and take no address; on an instruction line a semicolon starts a comment.
Addresses are octal and `ADD` operands signed decimal.

`parseProgram` reads a whole program and reports the first line that is no instruction,
with its line number.
-/

namespace SimControl.Bench

/-- An instruction of the test bench. -/
inductive Instruction where
  /-- Does nothing. -/
  | nop
  /-- Stops the machine after it. -/
  | halt
  /-- Writes bytes to the console. -/
  | print (text : List UInt8)
  /-- Reads a byte of console input into the accumulator. -/
  | read
  /-- Loads the accumulator from memory. -/
  | load (addr : Address)
  /-- Stores the accumulator in memory. -/
  | store (addr : Address)
  /-- Adds a signed number to the accumulator, wrapping at 64 bits. -/
  | add (n : Int64)
  /-- Jumps to an address. -/
  | jump (addr : Address)
  /-- Jumps to an address when the accumulator is not zero. -/
  | jumpNonzero (addr : Address)
  /-- Calls a subroutine, pushing the address after the call. -/
  | call (addr : Address)
  /-- Returns to the address on top of the call stack. -/
  | ret
  deriving DecidableEq

/-- The breakpoint types the test bench supports: execution by default, instruction fetch,
read and write. -/
def breakTypeTable : BreakTypeTable :=
  BreakTypeTable.make 'E'
    [('E', "Execution"), ('N', "Instruction fetch"), ('R', "Read"), ('W', "Write")]

/-- A line of a program that is no instruction, with its line number. -/
structure ProgramError where
  lineNumber : Nat
  reason : String
  deriving DecidableEq

/-- The message for a bad program line. -/
def ProgramError.message (e : ProgramError) : String :=
  "line " ++ toString e.lineNumber ++ ": " ++ e.reason

/-- How a lexeme is named in a message: a token as written back, bad text as it stands. -/
def describe : Command.Lexeme → String
  | .token t => t.render
  | .bad text => text

/-- The operand of an instruction that takes an address. -/
def addressOperand (opcode : String) : Option Command.Lexeme → Except String Address
  | some (.token (.word w)) =>
    match Address.parse w with
    | .ok a => .ok a
    | .error e => .error (opcode ++ ": " ++ e.message)
  | some other => .error (opcode ++ ": expected an address, found " ++ describe other)
  | none => .error (opcode ++ " needs an address")

/-- An instruction that takes no operand. -/
def bare (opcode : String) (i : Instruction) : Option Command.Lexeme → Except String Instruction
  | none => .ok i
  | some _ => .error (opcode ++ " takes no operand")

/-- The instruction an upper-cased opcode and its operand make. -/
def decodeInstruction (opcode : String) (operand : Option Command.Lexeme) :
    Except String Instruction :=
  match opcode with
  | "NOP" => bare opcode .nop operand
  | "HALT" => bare opcode .halt operand
  | "READ" => bare opcode .read operand
  | "RETURN" => bare opcode .ret operand
  | "LOAD" => Instruction.load <$> addressOperand opcode operand
  | "STORE" => Instruction.store <$> addressOperand opcode operand
  | "JUMP" => Instruction.jump <$> addressOperand opcode operand
  | "JNZ" => Instruction.jumpNonzero <$> addressOperand opcode operand
  | "CALL" => Instruction.call <$> addressOperand opcode operand
  | "TYPE" =>
    match operand with
    | some (.token (.quoted q)) =>
      match Text.Quoted.decode q with
      | .ok bytes => .ok (.print bytes)
      | .error e => .error ("TYPE: " ++ e.message)
    | some (.bad text) => .error ("TYPE: unterminated string " ++ text)
    | _ => .error "TYPE needs a quoted string"
  | "ADD" =>
    match operand with
    | some (.token (.word w)) =>
      match Text.readSigned64 w with
      | some n => .ok (.add (Int64.ofInt n))
      | none => .error ("ADD: '" ++ w ++ "' is not a decimal number")
    | _ => .error "ADD needs a decimal number"
  | _ => .error ("unknown instruction '" ++ opcode ++ "'")

/-- Reads one instruction line; a semicolon and what follows it are a comment. -/
def parseInstruction (text : String) : Except String Instruction :=
  let lexemes : List Command.Lexeme :=
    ((Command.scan text).map (·.lexeme)).takeWhile (· != .token .semicolon)
  match lexemes with
  | [] => .error "missing instruction"
  | .token (.word w) :: rest =>
    let opcode := String.ofList (w.toList.map Char.toUpper)
    match rest with
    | _ :: extra :: _ => .error (opcode ++ ": unexpected " ++ describe extra)
    | operand => decodeInstruction opcode operand.head?
  | other :: _ => .error ("expected an instruction, found " ++ describe other)

/-- A program line holds an instruction: it is not blank and starts with no comment mark. -/
def isInstructionLine (line : String) : Bool :=
  match line.toList with
  | [] | ';' :: _ | '#' :: _ => false
  | _ => true

/-- Reads a program: the instructions of its instruction lines, in order, or the first line
that is no instruction. -/
def parseProgram (text : String) : Except ProgramError (List Instruction) :=
  ((Text.textLines text).zipIdx 1).filterMap (fun (line, n) =>
      let t := Text.trimBlank line
      if isInstructionLine t then some (t, n) else none)
    |>.mapM fun (t, n) =>
      match parseInstruction t with
      | .ok i => .ok i
      | .error reason => .error ⟨n, reason⟩

end SimControl.Bench
