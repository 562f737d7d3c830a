import SimControl.Fault
import SimControl.Text.Blank
/-!
# Expect rules

The expect rules of a line watch its output. Each output byte is appended to a match buffer
and the rules are tried, in the order they were defined, against the bytes written last; the
first rule that matches is selected.

The buffer is linear. When the insertion cursor reaches the end it goes back to the start
without moving anything, and a pattern that straddles that point is still recognised by
comparing its tail with the start of the buffer and its head with the end. After any match the
cursor goes back to the start and the older contents are forgotten, so bytes that were part of
one match are not seen again.

A selected rule with a positive count counts down instead of firing. A rule that fires is
deleted unless it is persistent; a clear-all rule deletes every rule of the line.
-/

namespace SimControl

namespace Switches

/-- The switch of an ASCII letter, none for anything else. -/
def ofLetter (c : Char) : Switches := (letter? c).getD empty

end Switches

/-- Keep the rule after it fires. -/
def persistSwitch : Switches := Switches.ofLetter 'P'

/-- Delete every rule of the line when this one fires. -/
def clearAllSwitch : Switches := Switches.ofLetter 'C'

/-- Regular-expression matching, which is not supported. -/
def regexSwitch : Switches := Switches.ofLetter 'R'

/-- Case-independent regular-expression matching. -/
def caseInsensitiveSwitch : Switches := Switches.ofLetter 'I'

/-- The halt-after delay is in microseconds, not instructions. -/
def usecsSwitch : Switches := Switches.ofLetter 'T'

/-- An expect rule. -/
structure ExpectRule where
  /-- The pattern as written, quotes and all. -/
  pattern : String
  /-- The bytes the pattern stands for. -/
  matchBytes : List UInt8
  /-- Matches still to count down before the rule fires. -/
  count : Nat
  switches : Switches
  action : Option String
  deriving DecidableEq

/-- The rule as the command that would define it. -/
def ExpectRule.render (r : ExpectRule) : String :=
  "EXPECT" ++ (if r.switches.isEmpty then "" else " " ++ r.switches.render) ++ " " ++ r.pattern ++
    (if r.count > 0 then " [" ++ toString r.count ++ "]" else "") ++
    (match r.action with
     | some a => " " ++ a
     | none => "")

/-- A rule that fired. -/
structure ExpectMatch where
  pattern : String
  action : Option String
  /-- The delay before the simulation should stop. -/
  after : Nat
  /-- The delay is in microseconds. -/
  afterInUsecs : Bool
  deriving DecidableEq

/-- The expect rules of a line with their match buffer. -/
structure Expectations where
  line : String
  rules : List ExpectRule
  /-- The match buffer: `bufSize` bytes and a terminator, empty when there are no rules. -/
  buf : List UInt8
  bufSize : Nat
  /-- Where the next output byte goes. -/
  ins : Nat
  /-- The cursor went back to the start because the buffer filled, so the end of the buffer
  holds recent output. -/
  wrapped : Bool
  /-- The line's halt-after delay. -/
  after : Nat
  deriving DecidableEq

namespace Expectations

/-- A line with no rules. -/
def new (line : String) : Expectations := ⟨line, [], [], 0, 0, false, 0⟩

/-- The line has no rules. -/
def isEmpty (e : Expectations) : Bool := e.rules.isEmpty

/-- The rule for a pattern, written as it was defined. -/
def find? (e : Expectations) (pattern : String) : Option ExpectRule :=
  e.rules.find? (·.pattern == pattern)

/-- Drops the buffer and the halt-after delay once no rule is left. -/
def releaseIfUnused (e : Expectations) : Expectations :=
  if e.rules.isEmpty then { e with buf := [], bufSize := 0, ins := 0, wrapped := false, after := 0 }
  else e

/-- Grows the buffer, if it is short, to one byte more than the longest rule's bytes; a buffer
that grows starts again as if the cursor had never gone back to the start. -/
def fitBuffer (e : Expectations) : Expectations :=
  let needed : Nat := (e.rules.map (·.matchBytes.length + 1)).foldl max 0
  if needed > e.bufSize then
    { e with bufSize := needed, buf := e.buf ++ List.replicate (needed + 1 - e.buf.length) 0,
             wrapped := false }
  else e

/-- The bytes a rule for a quoted pattern stands for, once the request is seen to be valid: it
is refused if it asks for regular-expression matching, if the pattern cannot be read or stands
for no bytes, if a persistent rule for it exists, or if a halt-after delay is given while rules
for other patterns exist. -/
def validate (e : Expectations) (pattern : String) (after : Nat) (switches : Switches) :
    Except Fault (List UInt8) := do
  if switches.contains regexSwitch then throw .regexUnsupported
  if switches.contains caseInsensitiveSwitch then throw .caseInsensitiveNeedsRegex
  let bytes ← match Text.Quoted.decode pattern with
    | .ok b => pure b
    | .error q => throw (.invalidQuotedString q)
  if bytes.isEmpty then throw (.badArgument pattern)
  if (e.find? pattern).any (·.switches.contains persistSwitch) then
    throw (.duplicatePersistentRule pattern)
  if after != 0 && e.rules.any (·.pattern != pattern) then throw .haltAfterConflict
  return bytes

/-- Defines or redefines the rule for a pattern standing for `bytes`, and grows the buffer to
hold it. A nonzero delay becomes the line's; a zero one clears the line's only when this is its
only rule. -/
def define (e : Expectations) (pattern : String) (bytes : List UInt8) (count after : Nat)
    (switches : Switches) (action : Option String) : Expectations :=
  let others := e.rules.any (·.pattern != pattern)
  let action := action.bind fun s => let s := Text.trimBlank s; if s.isEmpty then none else some s
  let update := fun (r : ExpectRule) =>
    { r with count := count, switches := switches, action := action }
  let rules :=
    if e.rules.any (·.pattern == pattern) then
      e.rules.map fun r => if r.pattern == pattern then update r else r
    else e.rules ++ [update ⟨pattern, bytes, 0, Switches.empty, none⟩]
  fitBuffer { e with rules := rules, after := if after != 0 || !others then after else e.after }

/-- Defines or redefines the rule for a quoted pattern; nothing changes if the request is
refused. -/
def set (e : Expectations) (pattern : String) (count after : Nat) (switches : Switches)
    (action : Option String) : Except Fault Expectations := do
  let bytes ← e.validate pattern after switches
  return e.define pattern bytes count after switches action

/-- Removes the rule for a pattern, if there is one. -/
def clear (e : Expectations) (pattern : String) : Expectations :=
  releaseIfUnused { e with rules := e.rules.filter (·.pattern != pattern) }

/-- Removes every rule. -/
def clearAll (e : Expectations) : Expectations :=
  releaseIfUnused { e with rules := [] }

/-- The bytes of a list from position `a` up to position `b`. -/
def slice (l : List UInt8) (a b : Nat) : List UInt8 := (l.drop a).take (b - a)

/-- The pattern ends at the cursor, or straddles the point where the cursor went back to the
start: its tail at the start of the buffer and its head at the end. -/
def matchesAtCursor (e : Expectations) (pattern : List UInt8) : Bool :=
  let size := pattern.length
  let ins := e.ins
  if ins < size then
    e.wrapped && slice e.buf 0 ins == pattern.drop (size - ins) &&
      slice e.buf (e.bufSize - (size - ins)) e.bufSize == pattern.take (size - ins)
  else slice e.buf (ins - size) ins == pattern

/-- The buffer with an output byte written at the cursor and a terminator after it, the cursor
moved past the byte. -/
def write (e : Expectations) (byte : UInt8) : Expectations :=
  { e with buf := (e.buf.set e.ins byte).set (e.ins + 1) 0, ins := e.ins + 1 }

/-- The cursor goes back to the start once it reaches the end of the buffer. -/
def wrapCursor (e : Expectations) : Expectations :=
  if e.ins = e.bufSize then { e with ins := 0, wrapped := true } else e

/-- The first rule, in the order they were defined, that matches once the byte is written. -/
def select? (e : Expectations) (byte : UInt8) : Option Nat :=
  let e := e.write byte
  e.rules.findIdx? fun r => e.matchesAtCursor r.matchBytes

/-- What a selection does: the cursor goes back to the start, and the selected rule counts
down if its count is positive, or fires otherwise. -/
def respond (e : Expectations) : Option Nat → Option ExpectMatch × Expectations
  | none => (none, e)
  | some i =>
    let e := { e with ins := 0, wrapped := false }
    match e.rules[i]? with
    | none => (none, e)
    | some r =>
      if r.count > 0 then (none, { e with rules := e.rules.set i { r with count := r.count - 1 } })
      else
        let m : ExpectMatch :=
          ⟨r.pattern, r.action, e.after, r.switches.contains usecsSwitch⟩
        if r.switches.contains clearAllSwitch then (some m, e.clearAll)
        else if !r.switches.contains persistSwitch then
          (some m, releaseIfUnused { e with rules := e.rules.eraseIdx i })
        else (some m, e)

/-- Feeds one output byte to the rules, and returns the rule that fired, if one did. -/
def check (e : Expectations) (byte : UInt8) : Option ExpectMatch × Expectations :=
  if e.rules.isEmpty then (none, e)
  else (e.write byte).wrapCursor.respond (e.select? byte)

/-- The SHOW EXPECT report: the buffer and the rules, or only the rule for a pattern. -/
def report (e : Expectations) (pattern : Option String) : String :=
  if e.rules.isEmpty then "No expect rules defined on " ++ e.line ++ "\n"
  else
    let units := if e.rules.any (·.switches.contains usecsSwitch) then "usecs" else "instructions"
    let shown := e.rules.filter fun r => pattern.all (r.pattern == ·)
    e.line ++ " expect rules:\n" ++
      "  Match Buffer Size: " ++ toString e.bufSize ++ "\n" ++
      "  Buffer Insert Offset: " ++ toString e.ins ++ "\n" ++
      "  Buffer Contents: " ++ Text.Quoted.encode (e.buf.take e.ins) ++ "\n" ++
      (if e.after != 0 then "  Halt After: " ++ toString e.after ++ " " ++ units ++ "\n" else "") ++
      String.join (shown.map fun r => "  " ++ r.render ++ "\n") ++
      (match shown, pattern with
       | [], some p => "  No rule for " ++ p ++ "\n"
       | _, _ => "")

end Expectations

end SimControl
