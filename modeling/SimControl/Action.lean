import SimControl.Command.Token
import SimControl.Text.Blank
/-!
# Pending actions

Breakpoints and expect rules may carry an action: commands separated by semicolons. When the
trigger fires, the action's commands are staged here, and the command loop runs them one at
a time before it reads more input. Actions staged at the same instant run in the order they
were staged.

A semicolon inside a quoted string separates nothing, and after a quote that is never closed
nothing does.
-/

namespace SimControl

/-- The character positions at which an action's commands end: its semicolon tokens, up to
the first unterminated quoted string. -/
def separatorPositions : List Command.Lexed → List (Nat × Nat)
  | [] => []
  | l :: rest =>
    match l.lexeme with
    | .token .semicolon => (l.start, l.stop) :: separatorPositions rest
    | .bad text =>
      match text.toList with
      | '"' :: _ | '\'' :: _ => []
      | _ => separatorPositions rest
    | _ => separatorPositions rest

/-- The pieces of a text between the given separators, in order: `cs` are the characters
from position `start` on, and each separator is the positions it starts and stops at. -/
def piecesBetween (cs : List Char) (start : Nat) : List (Nat × Nat) → List String
  | [] => [String.ofList cs]
  | (a, b) :: more => String.ofList (cs.take (a - start)) :: piecesBetween (cs.drop (b - start)) b more

/-- The commands of an action: the trimmed, non-empty texts between its separators. -/
def splitCommands (action : String) : List String :=
  (piecesBetween action.toList 0 (separatorPositions (Command.scan action))).filterMap fun piece =>
    let t := Text.trimBlank piece
    if t.isEmpty then none else some t

/-- Commands waiting to be run, first to run first. -/
structure ActionQueue where
  commands : List String := []
  deriving DecidableEq, Inhabited

namespace ActionQueue

/-- Appends the commands of an action. -/
def stage (q : ActionQueue) (action : String) : ActionQueue :=
  { commands := q.commands ++ splitCommands action }

/-- Takes the next command to run. -/
def next (q : ActionQueue) : Option String × ActionQueue :=
  match q.commands with
  | [] => (none, q)
  | c :: rest => (some c, { commands := rest })

/-- Drops every waiting command. -/
def clear (_ : ActionQueue) : ActionQueue := {}

/-- The number of waiting commands. -/
def size (q : ActionQueue) : Nat := q.commands.length

/-- No command is waiting. -/
def isEmpty (q : ActionQueue) : Bool := q.commands.isEmpty

end ActionQueue

end SimControl
