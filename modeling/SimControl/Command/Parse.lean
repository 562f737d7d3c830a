import SimControl.Command.Basic
import SimControl.Command.Token
import SimControl.Text.Case
/-!
# Reading commands

`Command.parse` reads one line (typed, read from a DO file or taken from a pending action)
into a `Command`. Keywords are matched without regard to case and may be abbreviated, but not
below a minimum length: `BR` is BREAK but `B` is nothing. Addresses are octal; counts and
delays are decimal.

The arguments of a command are read in a fixed order; the first one that cannot be read
refuses the command, and text left over after the last one refuses it too.
-/

namespace SimControl.Command

/-- The keywords of the command language. -/
inductive Keyword where
  | brk | noBrk | expect | noExpect | send | noSend | display | step | nextStep | go | run
  | cont | load | runFile | echo | exit | quit | queue | time
  deriving DecidableEq

/-- Each command keyword with the shortest abbreviation accepted. -/
def commandWords : List (String × Nat × Keyword) :=
  [("BREAK", 2, .brk), ("NOBREAK", 4, .noBrk), ("EXPECT", 3, .expect),
   ("NOEXPECT", 5, .noExpect), ("SEND", 3, .send), ("NOSEND", 5, .noSend),
   ("SHOW", 2, .display), ("STEP", 2, .step), ("NEXT", 3, .nextStep), ("GO", 2, .go),
   ("RUN", 2, .run), ("CONTINUE", 4, .cont), ("LOAD", 2, .load), ("DO", 2, .runFile),
   ("ECHO", 2, .echo), ("EXIT", 2, .exit), ("QUIT", 4, .quit)]

/-- Each item SHOW reports with the shortest abbreviation accepted. -/
def showWords : List (String × Nat × Keyword) :=
  [("BREAK", 2, .brk), ("EXPECT", 3, .expect), ("SEND", 3, .send), ("QUEUE", 3, .queue),
   ("TIME", 3, .time)]

/-- The keyword a word abbreviates: it must be at least the minimum length and a prefix of
exactly one keyword of the table. -/
def lookup (word : String) (table : List (String × Nat × Keyword)) : Except Fault Keyword :=
  let u := Text.upperAscii word
  match table.filter (fun (name, least, _) => least ≤ u.length && u.toList.isPrefixOf name.toList) with
  | [] => .error (.unknownCommand word)
  | [(_, _, k)] => .ok k
  | _ => .error (.ambiguousCommand word)

/-- The fault for text that makes no token where an argument was expected. -/
def lexicalFault (text : String) : Fault :=
  match text.toList with
  | '"' :: _ | '\'' :: _ => .invalidQuotedString .notQuoted
  | _ => .badArgument text

/-- A line being read: the line itself and its lexemes not yet read. -/
structure Cursor where
  source : String
  rest : List Lexed

/-- Reading arguments: the cursor moves on, and a fault refuses the command. -/
abbrev Reader := StateT Cursor (Except Fault)

/-- The next lexeme, not read. -/
def peek : Reader (Option Lexeme) := do
  return (← get).rest.head?.map (·.lexeme)

/-- Moves past the next lexeme. -/
def advance : Reader Unit :=
  modify fun c => { c with rest := c.rest.drop 1 }

/-- Runs a reader of the lexeme list itself. -/
def onRest {α : Type} (f : List Lexed → Except Fault (α × List Lexed)) : Reader α := do
  let c ← get
  let (a, rest) ← f c.rest
  set { c with rest := rest }
  return a

/-- A word, if one comes next. -/
def word? : Reader (Option String) := do
  match ← peek with
  | some (.token (.word w)) => advance; return some w
  | _ => return none

/-- The text of everything not yet read, trimmed, or `none` if that is nothing; reads it all. -/
def remainder : Reader (Option String) := do
  let c ← get
  match c.rest with
  | [] => return none
  | l :: _ =>
    set { c with rest := [] }
    let r := Text.trimBlank (textFrom c.source l.start)
    return if r.isEmpty then none else some r

/-- Refuses any text left over. -/
def expectEnd : Reader Unit := do
  match ← remainder with
  | none => return
  | some r => throw (.tooManyArguments r)

/-- Reads a semicolon, if one comes next. -/
def semicolon : Reader Bool := do
  if (← peek) == some (.token .semicolon) then advance; return true
  return false

/-- The union of the switch tokens that come next. -/
def switchesFrom (acc : Switches) : List Lexed → Except Fault (Switches × List Lexed)
  | ⟨.token (.switch s), _, _⟩ :: rest =>
    match Switches.parseToken s with
    | .ok sw => switchesFrom (acc.union sw) rest
    | .error e => .error (.invalidSwitch e)
  | rest => .ok (acc, rest)

/-- Reads the switches that come next. -/
def switches : Reader Switches := onRest (switchesFrom Switches.empty)

/-- A quoted string comes next. -/
def atQuote : Reader Bool := do
  match ← peek with
  | some (.token (.quoted _)) => return true
  | _ => return false

/-- Reads a quoted string, quotes included. -/
def quoted : Reader String := do
  match ← peek with
  | some (.token (.quoted q)) => advance; return q
  | some (.bad text) => throw (lexicalFault text)
  | some (.token _) => throw (.badArgument ((← remainder).getD ""))
  | none => throw (.missingArgument "quoted string")

/-- Reads a repeat count, if one comes next. -/
def count? : Reader (Option Nat) := do
  match ← peek with
  | some (.token (.count n)) => advance; return some n
  | _ => return none

/-- Reads `KEY=n` for the given key, and a comma after it if there is one. -/
def keywordValue? (key : String) : Reader (Option Nat) := do
  match ← peek with
  | some (.token (.keyValue k v)) =>
    if Text.sameAscii k key then
      advance
      if (← peek) == some (.token .comma) then advance
      return some v
    else return none
  | _ => return none

/-- The items of an address list from an item on: each item may carry a count and is
followed by a comma when another item follows. -/
def targetsFrom : List Lexed → Except Fault (List BreakTarget × List Lexed)
  | [] => .error (.missingArgument "address")
  | l :: rest =>
    match l.lexeme with
    | .bad text => .error (lexicalFault text)
    | .token (.word w) =>
      match readRange w with
      | .error e => .error e
      | .ok r =>
        match rest with
        | ⟨.token (.count n), _, _⟩ :: ⟨.token .comma, _, _⟩ :: more =>
          (targetsFrom more).map fun (ts, left) => (⟨r, n⟩ :: ts, left)
        | ⟨.token (.count n), _, _⟩ :: more => .ok ([⟨r, n⟩], more)
        | ⟨.token .comma, _, _⟩ :: more =>
          (targetsFrom more).map fun (ts, left) => (⟨r, 0⟩ :: ts, left)
        | more => .ok ([⟨r, 0⟩], more)
    | .token t => .error (.badArgument t.render)

/-- Reads an address list; it is empty unless a word comes next. -/
def addressList : Reader (List BreakTarget) := do
  match ← peek with
  | some (.token (.word _)) => onRest targetsFrom
  | _ => return []

/-- Reads a line name, if a word comes next. -/
def line? : Reader (Option String) := word?

/-- The lexemes after a comma, if one comes first. -/
def skipComma : List Lexed → List Lexed
  | ⟨.token .comma, _, _⟩ :: rest => rest
  | rest => rest

theorem length_skipComma_le (ls : List Lexed) : (skipComma ls).length ≤ ls.length := by
  unfold skipComma
  split <;> simp

/-- The `AFTER=` and `DELAY=` settings of SEND, in any order; the last of each counts. -/
def sendTimes (after delay : Nat) : List Lexed → Nat × Nat × List Lexed
  | [] => (after, delay, [])
  | l :: rest =>
    match l.lexeme with
    | .token (.keyValue k v) =>
      if Text.sameAscii k "AFTER" then sendTimes v delay (skipComma rest)
      else if Text.sameAscii k "DELAY" then sendTimes after v (skipComma rest)
      else (after, delay, l :: rest)
    | _ => (after, delay, l :: rest)
termination_by ls => ls.length
decreasing_by
  all_goals have := length_skipComma_le rest
  all_goals simp only [List.length_cons]
  all_goals omega

/-- The start address and stop condition of GO, read word by word. -/
def goArgs (start : Option Address) (cond : Option Until) :
    List Lexed → Except Fault (Option Address × Option Until × List Lexed)
  | ⟨.token (.word w), _, _⟩ :: rest =>
    if Text.sameAscii w "UNTIL" then
      if cond.isSome then .error (.tooManyArguments w)
      else
        match rest with
        | ⟨.token (.quoted q), _, _⟩ :: more => goArgs start (some (.output q)) more
        | ⟨.token (.word x), _, _⟩ :: more =>
          match readAddress x with
          | .ok addr => goArgs start (some (.address addr)) more
          | .error e => .error e
        | _ => .error (.missingArgument "UNTIL condition")
    else if start.isNone && cond.isNone then
      match readAddress w with
      | .ok addr => goArgs (some addr) cond rest
      | .error e => .error e
    else .error (.tooManyArguments w)
  | rest => .ok (start, cond, rest)

/-- BREAK and NOBREAK: switches, an address list, and for BREAK an action after a semicolon. -/
def readBreak (withAction : Bool) : Reader Command := do
  let types := BreakTypes.ofSwitches (← switches)
  let targets ← addressList
  if ← semicolon then
    if !withAction then throw (.tooManyArguments ((← remainder).getD ";"))
    return .setBreak types targets (← remainder)
  expectEnd
  return if withAction then .setBreak types targets none else .clearBreak types targets

/-- EXPECT: switches, a line, a count, `HALTAFTER=`, the pattern, then the action. -/
def readExpect : Reader Command := do
  let sw ← switches
  let line ← line?
  let count := (← count?).getD 0
  let haltAfter := (← keywordValue? "HALTAFTER").getD 0
  let pattern ← quoted
  return .expect sw line count haltAfter pattern (← remainder)

/-- A quoted string, if one comes next. -/
def quoted? : Reader (Option String) := do
  if ← atQuote then return some (← quoted) else return none

/-- NOEXPECT: a line and a pattern. -/
def readNoExpect : Reader Command := do
  let line ← line?
  let pattern ← quoted?
  expectEnd
  return .noExpect line pattern

/-- SEND: switches, a line, the times, then the data. -/
def readSend : Reader Command := do
  let sw ← switches
  let line ← line?
  let (after, delay) ← onRest fun ls => .ok (let (a, d, r) := sendTimes 0 0 ls; ((a, d), r))
  let data ← quoted
  expectEnd
  return .send sw line after delay data

/-- SHOW and the item it reports. -/
def readShow : Reader Command := do
  let some w ← word? | throw (.missingArgument "what to show")
  let item ← match ← lookup w showWords with
    | .brk => ShowItem.breaks <$> addressList
    | .expect => do
      let line ← line?
      let pattern ← quoted?
      pure (ShowItem.expect line pattern)
    | .send => ShowItem.send <$> line?
    | .queue => pure .queue
    | _ => pure .time
  expectEnd
  return .report item

/-- The repeat of STEP and NEXT: a positive decimal number, one if none is given. -/
def readRepeat : Reader Nat := do
  let n ← match ← word? with
    | some w =>
      match Text.readWord 10 32 w with
      | some n => pure n
      | none => throw (.badArgument w)
    | none => pure 1
  expectEnd
  if n = 0 then throw (.badArgument "0")
  return n

/-- GO: an optional start address and an optional `UNTIL` condition. -/
def readGo : Reader Command := do
  let (start, cond) ← onRest fun ls => (goArgs none none ls).map fun (s, c, r) => ((s, c), r)
  expectEnd
  return .go start cond

/-- RUN: an optional start address. -/
def readRun : Reader Command := do
  let start ← match ← word? with
    | some w => some <$> readAddress w
    | none => pure none
  expectEnd
  return .run start

/-- The rest of the line as a file name, which must be given. -/
def fileName : Reader String := do
  match ← remainder with
  | some f => return f
  | none => throw (.missingArgument "file name")

/-- Reads the arguments of the command a keyword starts. -/
def readArguments (w : String) : Keyword → Reader Command
  | .brk => readBreak true
  | .noBrk => readBreak false
  | .expect => readExpect
  | .noExpect => readNoExpect
  | .send => readSend
  | .noSend => do
    let line ← line?
    expectEnd
    return .noSend line
  | .display => readShow
  | .step => Command.step <$> readRepeat
  | .nextStep => Command.stepOver <$> readRepeat
  | .go => readGo
  | .run => readRun
  | .cont => do expectEnd; return .resume
  | .load => Command.load <$> fileName
  | .runFile => Command.runFile <$> fileName
  | .echo => do return .echo ((← remainder).getD "")
  | .exit | .quit => pure .exit
  | .queue | .time => throw (.unknownCommand w)

/-- Reads one command line. -/
def parse (line : String) : Except Fault Command :=
  match scan line with
  | [] => .ok .blank
  | l :: rest =>
    match l.lexeme with
    | .token .semicolon => .ok .blank
    | .token (.word w) =>
      if w.startsWith "#" then .ok .blank
      else do
        let k ← lookup w commandWords
        let (cmd, _) ← (readArguments w k).run ⟨line, rest⟩
        return cmd
    | .token t => .error (.unknownCommand t.render)
    | .bad text => .error (.unknownCommand text)

/-- Reads a line that holds only an address list. -/
def readAddressList (text : String) : Except Fault (List BreakTarget) := do
  let (ts, _) ← (do let ts ← addressList; expectEnd; return ts : Reader _).run ⟨text, scan text⟩
  return ts

end SimControl.Command
