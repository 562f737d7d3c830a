import SimControl.Switches
import SimControl.Text.Numeral
/-!
# Breakpoint types

The low 26 bits of `BreakTypes` are the types a user sees, one per letter (E for execution,
R for read, and so on; bit 0 is A). Above them stand the dynamic step-over and user types
and the temporary flag. When a breakpoint is tested, the top three bits select one of eight
debounce spaces.

A `BreakTypeTable` lists the letter types a machine supports, each with the description used
when a breakpoint of that type is hit, and the default type for breakpoints set without one.

* `BreakTypes.render` writes the letters, then `+STEP`, `+USER` and `+TEMP` for the flags.
* `BreakTypes.ofText?` reads that form back, with an optional `@n` naming the space.
-/

namespace SimControl

/-- A set of breakpoint types, with a debounce space in its top three bits. -/
structure BreakTypes where
  /-- Letters in bits 0 to 25, step-over, user and temporary in 26 to 28, the space above. -/
  bits : UInt32
  deriving DecidableEq

namespace BreakTypes

/-- The bits below the debounce space. -/
def typeMask : UInt32 := 0x1FFFFFFF

/-- No types. -/
def empty : BreakTypes := ⟨0⟩

instance : Inhabited BreakTypes := ⟨empty⟩

/-- Planted by NEXT to step over subroutine calls. -/
def stepOver : BreakTypes := ⟨0x4000000⟩

/-- Planted on behalf of the machine rather than the user. -/
def user : BreakTypes := ⟨0x8000000⟩

/-- The two dynamic types, step-over and user. -/
def dynamic : BreakTypes := ⟨0xC000000⟩

/-- One-shot: deleted when it fires. -/
def temp : BreakTypes := ⟨0x10000000⟩

/-- The letter types of a set of switches. -/
def ofSwitches (s : Switches) : BreakTypes := ⟨s.bits⟩

/-- The type for a letter, if it is an ASCII letter. -/
def letter? (c : Char) : Option BreakTypes := (Switches.letter? c).map ofSwitches

/-- Both sets of types; the spaces are joined bit by bit too. -/
def union (a b : BreakTypes) : BreakTypes := ⟨a.bits ||| b.bits⟩

/-- The types in both. -/
def inter (a b : BreakTypes) : BreakTypes := ⟨a.bits &&& b.bits⟩

/-- Every type not present, with no space. -/
def compl (a : BreakTypes) : BreakTypes := ⟨(~~~a.bits) &&& typeMask⟩

/-- The letter types alone, as switches. -/
def letters (a : BreakTypes) : Switches := Switches.ofBits a.bits

/-- The same types in debounce space `n` modulo eight. -/
def inSpace (a : BreakTypes) (n : Nat) : BreakTypes :=
  ⟨(a.bits &&& typeMask) ||| ((n % 8).toUInt32 <<< 29)⟩

/-- The debounce space. -/
def space (a : BreakTypes) : Nat := (a.bits >>> 29).toNat

/-- The types without their debounce space. -/
def withoutSpace (a : BreakTypes) : BreakTypes := ⟨a.bits &&& typeMask⟩

/-- No type is present, whatever the space. -/
def isEmpty (a : BreakTypes) : Bool := a.bits &&& typeMask == 0

/-- Every type of `b` is present in `a`; spaces are ignored. -/
def contains (a b : BreakTypes) : Bool := a.bits &&& b.bits &&& typeMask == b.bits &&& typeMask

/-- Some type is present in both; spaces are ignored. -/
def intersects (a b : BreakTypes) : Bool := a.bits &&& b.bits &&& typeMask != 0

/-- The letters, then a marker for each flag present. -/
def render (a : BreakTypes) : String :=
  String.ofList a.letters.letters ++
    (if a.intersects stepOver then "+STEP" else "") ++
    (if a.intersects user then "+USER" else "") ++
    (if a.intersects temp then "+TEMP" else "")

/-- Reads the markers `+STEP`, `+USER` and `+TEMP` and an optional `@n` after the letters. -/
def flagsOfText (acc : BreakTypes) : List Char → Option BreakTypes
  | [] => some acc
  | '+' :: 'S' :: 'T' :: 'E' :: 'P' :: cs => flagsOfText (acc.union stepOver) cs
  | '+' :: 'U' :: 'S' :: 'E' :: 'R' :: cs => flagsOfText (acc.union user) cs
  | '+' :: 'T' :: 'E' :: 'M' :: 'P' :: cs => flagsOfText (acc.union temp) cs
  | '@' :: cs => (Text.readUnsigned 10 (String.ofList cs)).map acc.inSpace
  | _ => none

/-- Reads the written form of break types: letters, flag markers and an optional `@n` that
puts them in space `n` modulo eight. -/
def ofText? (s : String) : Option BreakTypes :=
  let cs := s.toList
  let ls := cs.takeWhile Char.isAlpha
  (Switches.addLetters Switches.empty ls).bind fun sw =>
    flagsOfText (ofSwitches sw) (cs.dropWhile Char.isAlpha)

end BreakTypes

/-- A supported letter type and how a hit of it is reported. -/
structure BreakTypeDesc where
  letter : Char
  description : String
  deriving DecidableEq

/-- The breakpoint types a machine supports, and its default type. -/
structure BreakTypeTable where
  entries : List BreakTypeDesc
  defaultTypes : BreakTypes
  deriving DecidableEq

namespace BreakTypeTable

/-- A table from a default letter and letters with descriptions; letters are upper-cased. -/
def make (default : Char) (entries : List (Char × String)) : BreakTypeTable :=
  { entries := entries.map fun (c, d) => ⟨c.toUpper, d⟩
    defaultTypes := (BreakTypes.letter? default).getD BreakTypes.empty }

/-- Machines that say nothing else support only execution breakpoints. -/
def standard : BreakTypeTable := make 'E' [('E', "Execution")]

instance : Inhabited BreakTypeTable := ⟨standard⟩

/-- Every supported letter type; the default is always supported. -/
def supported (t : BreakTypeTable) : BreakTypes :=
  t.entries.foldl (fun acc e => acc.union ((BreakTypes.letter? e.letter).getD BreakTypes.empty))
    t.defaultTypes

/-- The description of the entry whose letter is exactly the letters of `types`. -/
def describe (t : BreakTypeTable) (types : BreakTypes) : Option String :=
  (t.entries.find? fun e => some types.letters == Switches.letter? e.letter).map
    BreakTypeDesc.description

end BreakTypeTable

end SimControl
