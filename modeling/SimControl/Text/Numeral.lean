/-!
# Numerals

Addresses are read and written in octal, counts and delays in decimal. A numeral is an
optional sign followed by one or more digits of its radix; a plus sign is always allowed, a
minus sign only where the number is signed. A reader gives `none` for anything else and for a
value outside the range of the word it fills.

* `readDigitsFrom_append`: reading two runs of digits in turn is reading their join.
-/

namespace SimControl.Text

/-- The value of an ASCII digit or letter as a digit of the given radix. -/
def digitValue (radix : Nat) (c : Char) : Option Nat :=
  let v :=
    if '0' ≤ c ∧ c ≤ '9' then c.toNat - '0'.toNat
    else if 'a' ≤ c ∧ c ≤ 'z' then c.toNat - 'a'.toNat + 10
    else if 'A' ≤ c ∧ c ≤ 'Z' then c.toNat - 'A'.toNat + 10
    else radix
  if v < radix then some v else none

/-- Reads digits most significant first, carrying the value read so far. -/
def readDigitsFrom (radix : Nat) (acc : Nat) : List Char → Option Nat
  | [] => some acc
  | c :: cs => (digitValue radix c).bind fun d => readDigitsFrom radix (acc * radix + d) cs

/-- The value of a non-empty run of digits. -/
def readDigits (radix : Nat) : List Char → Option Nat
  | [] => none
  | cs => readDigitsFrom radix 0 cs

/-- The value of an unsigned numeral: an optional plus sign, then digits. -/
def readUnsigned (radix : Nat) (s : String) : Option Nat :=
  match s.toList with
  | '+' :: cs => readDigits radix cs
  | cs => readDigits radix cs

/-- An unsigned numeral whose value fits in a word of the given number of bits. -/
def readWord (radix bits : Nat) (s : String) : Option Nat :=
  (readUnsigned radix s).filter (· < Nat.pow 2 bits)

/-- A decimal numeral for a signed 64-bit word: an optional sign, then digits. -/
def readSigned64 (s : String) : Option Int :=
  let value : Option Int :=
    match s.toList with
    | '+' :: cs => (readDigits 10 cs).map Int.ofNat
    | '-' :: cs => (readDigits 10 cs).map fun n => -Int.ofNat n
    | cs => (readDigits 10 cs).map Int.ofNat
  value.filter fun v => -9223372036854775808 ≤ v ∧ v < 9223372036854775808

/-- The digits of a number in a radix up to sixteen, most significant first. -/
def toDigits (radix : Nat) (n : Nat) : List Char :=
  Nat.toDigits radix n

/-- Octal text of a number, with no leading zeros. -/
def octal (n : Nat) : String :=
  String.ofList (toDigits 8 n)

/-- Text padded on the left with a fill character to at least the given width. -/
def padLeft (fill : Char) (width : Nat) (s : String) : String :=
  String.ofList (List.replicate (width - s.length) fill) ++ s

/-- Octal text of a number padded with zeros to at least the given width. -/
def octalPadded (width n : Nat) : String :=
  padLeft '0' width (octal n)

theorem readDigitsFrom_append (radix acc : Nat) (xs ys : List Char) :
    readDigitsFrom radix acc (xs ++ ys) =
      (readDigitsFrom radix acc xs).bind fun a => readDigitsFrom radix a ys := by
  induction xs generalizing acc with
  | nil => rfl
  | cons c cs ih =>
    simp only [List.cons_append, readDigitsFrom]
    cases digitValue radix c <;> simp [ih]

end SimControl.Text
