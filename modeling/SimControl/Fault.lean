import SimControl.Address
import SimControl.Switches
import SimControl.Text.Quoted
/-!
# Faults of commands

Every way a command can be refused, as a cause with its data, and the one function that
words each cause for the operator.
-/

namespace SimControl

/-- Why a command was refused. -/
inductive Fault where
  /-- Breakpoint letters the machine does not support. -/
  | unknownBreakpointType (types : Switches)
  /-- An action on a step-over or user breakpoint. -/
  | actionOnDynamicBreakpoint
  /-- A quoted string that cannot be read. -/
  | invalidQuotedString (e : Text.Quoted.Fault)
  /-- A switch token that is no minus sign and letters. -/
  | invalidSwitch (e : Switches.InvalidSwitch)
  /-- An expect rule asked for regular-expression matching. -/
  | regexUnsupported
  /-- An expect rule asked for case-independent matching without a regular expression. -/
  | caseInsensitiveNeedsRegex
  /-- A persistent expect rule with the same pattern exists. -/
  | duplicatePersistentRule (pattern : String)
  /-- A halt-after delay while other expect rules are defined. -/
  | haltAfterConflict
  /-- An expect rule with the same pattern exists. -/
  | expectRuleExists (pattern : String)
  /-- An address range too wide to visit address by address. -/
  | rangeTooLarge (low high : Address)
  /-- An argument that cannot be read. -/
  | badArgument (arg : String)
  /-- A required argument is missing. -/
  | missingArgument (what : String)
  /-- Text left over after a complete command. -/
  | tooManyArguments (rest : String)
  /-- A line name that no line has. -/
  | unknownLine (name : String)
  /-- A word that names no command. -/
  | unknownCommand (word : String)
  /-- A word that abbreviates more than one command. -/
  | ambiguousCommand (word : String)
  /-- DO files nested beyond the limit. -/
  | nestingTooDeep (depth : Nat)
  /-- A file that cannot be read, with the system's account of why. -/
  | unreadable (path : String) (reason : String)
  deriving DecidableEq

/-- The message that tells the operator why a command was refused. -/
def Fault.message : Fault → String
  | .unknownBreakpointType t => "unknown breakpoint type: " ++ t.render
  | .actionOnDynamicBreakpoint => "dynamic breakpoints cannot have actions"
  | .invalidQuotedString e => "invalid quoted string: " ++ e.message
  | .invalidSwitch e => e.message
  | .regexUnsupported => "regular expression expect rules are not supported"
  | .caseInsensitiveNeedsRegex =>
    "case independent matching is only valid for regular expressions"
  | .duplicatePersistentRule p => "persistent expect " ++ p ++ " already exists"
  | .haltAfterConflict =>
    "multiple concurrent expect rules are not valid when a HALTAFTER parameter is non-zero"
  | .expectRuleExists p => "expect rule " ++ p ++ " already exists"
  | .rangeTooLarge lo hi => "address range " ++ lo.toOctal ++ "-" ++ hi.toOctal ++ " is too large"
  | .badArgument a => "invalid argument '" ++ a ++ "'"
  | .missingArgument w => "missing argument: " ++ w
  | .tooManyArguments r => "too many arguments: '" ++ r ++ "'"
  | .unknownLine n => "no line named '" ++ n ++ "'"
  | .unknownCommand w => "unknown command '" ++ w ++ "'"
  | .ambiguousCommand w => "ambiguous command '" ++ w ++ "'"
  | .nestingTooDeep d => "DO commands nested more than " ++ toString d ++ " deep"
  | .unreadable p r => p ++ ": " ++ r

end SimControl
