import SimControl.Text.Numeral
/-!
# Addresses

The machine forms 24-bit absolute addresses. Breakpoints, the test bench and the command line
all use `Address`, and addresses are written and read in octal.

* `Address.parse` reads octal text: empty text, text that is no octal numeral (or whose value
  overflows a 64-bit word) and a value beyond 24 bits are three different faults.
* `Address.ofNat` keeps the low 24 bits; `Address.successor` wraps at the top.
-/

namespace SimControl

/-- A 24-bit absolute address. -/
structure Address where
  /-- The address as a number. -/
  val : Nat
  isLt : val < 16777216
  deriving DecidableEq

namespace Address

/-- The highest address, octal 77777777. -/
def maxVal : Nat := 16777215

/-- The address given by the low 24 bits of a number. -/
def ofNat (n : Nat) : Address := ⟨n % 16777216, Nat.mod_lt _ (by decide)⟩

/-- Address zero. -/
def zero : Address := ofNat 0

instance : Inhabited Address := ⟨zero⟩

instance : LT Address := ⟨fun a b => a.val < b.val⟩

instance : LE Address := ⟨fun a b => a.val ≤ b.val⟩

instance (a b : Address) : Decidable (a < b) := inferInstanceAs (Decidable (a.val < b.val))

instance (a b : Address) : Decidable (a ≤ b) := inferInstanceAs (Decidable (a.val ≤ b.val))

/-- Addresses compare as numbers. -/
instance : Ord Address := ⟨fun a b => compare a.val b.val⟩

/-- The next address; the highest address is followed by zero. -/
def successor (a : Address) : Address := ofNat (a.val + 1)

/-- The address `d` places further on, if it is still an address. -/
def checkedAdd (a : Address) (d : Nat) : Option Address :=
  if h : a.val + d < 16777216 then some ⟨a.val + d, h⟩ else none

/-- Octal text of an address, with no leading zeros. -/
def toOctal (a : Address) : String := Text.octal a.val

/-- Octal text of an address padded with zeros to eight digits. -/
def toOctal8 (a : Address) : String := Text.octalPadded 8 a.val

end Address

/-- A number too large for an address, kept as a 64-bit value for its message. -/
structure AddressOutOfRange where
  /-- The number that does not fit. -/
  value : Nat
  deriving DecidableEq

/-- The message for a number that is not an address. -/
def AddressOutOfRange.message (e : AddressOutOfRange) : String :=
  "address " ++ Text.octal e.value ++ " does not fit in 24 bits"

/-- Why octal text is not an address. -/
inductive AddressParseError where
  /-- The text is empty. -/
  | empty
  /-- The text is no octal numeral of a 64-bit word. -/
  | notOctal (text : String)
  /-- The numeral's value needs more than 24 bits. -/
  | outOfRange (e : AddressOutOfRange)
  deriving DecidableEq

/-- The message for text that is not an address. -/
def AddressParseError.message : AddressParseError → String
  | .empty => "missing address"
  | .notOctal s => "'" ++ s ++ "' is not an octal address"
  | .outOfRange e => e.message

namespace Address

/-- The address a number names, when it fits in 24 bits. -/
def ofNat? (n : Nat) : Except AddressOutOfRange Address :=
  if h : n < 16777216 then .ok ⟨n, h⟩ else .error ⟨n⟩

/-- Reads an address written in octal, with an optional plus sign. -/
def parse (s : String) : Except AddressParseError Address :=
  if s.isEmpty then .error .empty
  else
    match Text.readWord 8 64 s with
    | none => .error (.notOctal s)
    | some n =>
      if h : n < 16777216 then .ok ⟨n, h⟩ else .error (.outOfRange ⟨n⟩)

end Address

end SimControl
