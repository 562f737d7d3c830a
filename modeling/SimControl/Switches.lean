/-!
# Switches

Commands take single-letter switches (`-p`, `-RW`). Each letter A to Z owns one bit of a
`Switches` mask, bit 0 being A, whatever case it is written in. Breakpoint types use the same
letter bits.

* `Switches.parseToken` reads one switch token: a minus sign and one or more ASCII letters.
* `Switches.render` writes a minus sign and the letters in alphabetical order, or nothing for
  the empty mask.
-/

namespace SimControl

/-- A set of switch letters, one bit per letter; bits above Z are always clear. -/
structure Switches where
  /-- Bit `i` is set when the letter `i` places after A is present. -/
  bits : UInt32
  deriving DecidableEq

namespace Switches

/-- The bits that letters own: bit 0 for A up to bit 25 for Z. -/
def letterMask : UInt32 := 0x3FFFFFF

/-- No switches. -/
def empty : Switches := ⟨0⟩

instance : Inhabited Switches := ⟨empty⟩

/-- The switches whose bits are set in a word; bits above Z are dropped. -/
def ofBits (w : UInt32) : Switches := ⟨w &&& letterMask⟩

/-- The single switch for an ASCII letter of either case. -/
def letter? (c : Char) : Option Switches :=
  let u := c.toUpper
  if 'A' ≤ u ∧ u ≤ 'Z' then some ⟨(1 : UInt32) <<< (u.toNat - 'A'.toNat).toUInt32⟩ else none

/-- Both sets of switches. -/
def union (a b : Switches) : Switches := ⟨a.bits ||| b.bits⟩

/-- The switches present in both. -/
def inter (a b : Switches) : Switches := ⟨a.bits &&& b.bits⟩

/-- Every letter not present. -/
def compl (a : Switches) : Switches := ⟨(~~~a.bits) &&& letterMask⟩

/-- No letter is present. -/
def isEmpty (a : Switches) : Bool := a.bits == 0

/-- Every letter of `b` is present in `a`. -/
def contains (a b : Switches) : Bool := a.bits &&& b.bits == b.bits

/-- Some letter is present in both. -/
def intersects (a b : Switches) : Bool := a.bits &&& b.bits != 0

/-- Whether the switch for a letter (an upper-case ASCII letter) is present. -/
def has (a : Switches) (c : Char) : Bool :=
  match letter? c with
  | some s => a.contains s
  | none => false

/-- The letters present, in alphabetical order. -/
def letters (a : Switches) : List Char :=
  (List.range 26).filterMap fun i =>
    if a.bits &&& ((1 : UInt32) <<< i.toUInt32) != 0 then some (Char.ofNat ('A'.toNat + i))
    else none

/-- A minus sign followed by the letters present, or nothing when none is. -/
def render (a : Switches) : String :=
  if a.isEmpty then "" else String.ofList ('-' :: a.letters)

/-- A switch token that is not a minus sign followed by letters. -/
structure InvalidSwitch where
  /-- The token as written. -/
  token : String
  deriving DecidableEq

/-- The message for a bad switch token. -/
def InvalidSwitch.message (e : InvalidSwitch) : String :=
  "invalid switch '" ++ e.token ++ "'"

/-- Adds the letters of a switch token after its minus sign. -/
def addLetters (acc : Switches) : List Char → Option Switches
  | [] => some acc
  | c :: cs => (letter? c).bind fun s => addLetters (acc.union s) cs

/-- Reads a switch token: a minus sign followed by one or more ASCII letters. -/
def parseToken (token : String) : Except InvalidSwitch Switches :=
  match token.toList with
  | '-' :: c :: cs =>
    match addLetters empty (c :: cs) with
    | some s => .ok s
    | none => .error ⟨token⟩
  | _ => .error ⟨token⟩

end Switches

end SimControl
