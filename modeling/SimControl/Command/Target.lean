import SimControl.Address
import SimControl.Fault
import SimControl.Text.Blank
/-!
# Address lists

Breakpoint commands name their addresses by a list of items. An item is `ALL`, one address,
a range `low-high` or `low:high`, or a start and an octal length `low/len`; each may carry a
repeat count. Every range read here has `low ≤ high`.
-/

namespace SimControl.Command

/-- The addresses one item of an address list names. -/
inductive AddressRange where
  /-- Every address. -/
  | all
  /-- The addresses from `low` to `high`, both included. -/
  | span (low high : Address)
  deriving DecidableEq

/-- One item of an address list with its repeat count. -/
structure BreakTarget where
  range : AddressRange
  count : Nat
  deriving DecidableEq

/-- An address in an item, blanks around it allowed; a bad one is refused as written. -/
def readAddress (text : String) : Except Fault Address :=
  match Address.parse (Text.trimBlank text) with
  | .ok a => .ok a
  | .error _ => .error (.badArgument text)

/-- Splits a text at the first character that satisfies `p`. -/
def splitAtFirst (p : Char → Bool) (s : String) : Option (String × String) :=
  let cs := s.toList
  match cs.dropWhile (fun c => !p c) with
  | [] => none
  | _ :: after => some (String.ofList (cs.takeWhile fun c => !p c), String.ofList after)

/-- Reads one item of an address list. A start and length is tried before a range; a length
of zero, or one that runs past the last address, is refused. -/
def readRange (text : String) : Except Fault AddressRange :=
  if text.toList.map Char.toUpper = "ALL".toList then .ok .all
  else
    match splitAtFirst (· = '/') text with
    | some (lowText, lenText) => do
      let low ← readAddress lowText
      match Text.readWord 8 32 lenText with
      | none => .error (.badArgument text)
      | some len =>
        match (if len = 0 then none else low.checkedAdd (len - 1)) with
        | none => .error (.badArgument text)
        | some high => .ok (.span low high)
    | none =>
      match splitAtFirst (fun c => c = '-' ∨ c = ':') text with
      | some (lowText, highText) => do
        let low ← readAddress lowText
        let high ← readAddress highText
        if high < low then .error (.badArgument text) else .ok (.span low high)
      | none => do
        let a ← readAddress text
        .ok (.span a a)

end SimControl.Command
