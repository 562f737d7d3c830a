/-!
# Quoted strings

Expect patterns and send data are written as quoted strings with escapes in the manner of C:
`"login:\r\n"` or `'say "hi"'`. `decode` turns such a literal into bytes and `encode` writes
bytes as a literal that decodes back to exactly those bytes.

The rules of the format:

* a literal starts and ends with the same quote character, `"` or `'`; inside, that quote
  stands only behind a backslash, while the other quote stands for itself;
* the escapes are `\r \n \f \t \v \b`, `\e` for escape, `\\ \' \" \?`, one to three octal
  digits (the value taken modulo 256) and `\x` with up to two hexadecimal digits;
* the writer picks `'` when the data holds a `"` and no `'`, and `"` otherwise, writes the
  named escapes, a backslash before its own quote, printable ASCII as it is and every other
  byte as three octal digits.

Offsets in faults are byte offsets into the whole literal.
-/

namespace SimControl.Text.Quoted

/-- Why a literal is not a quoted string. -/
inductive Fault where
  /-- The text is not delimited by two equal quote characters. -/
  | notQuoted
  /-- A delimiting quote stands inside without a backslash. -/
  | embeddedQuote (offset : Nat)
  /-- A backslash starts no escape. -/
  | invalidEscape (offset : Nat)
  deriving DecidableEq

/-- The message for a literal that cannot be read. -/
def Fault.message : Fault → String
  | .notQuoted => "string must be quote delimited"
  | .embeddedQuote n => "unescaped quote at offset " ++ toString n
  | .invalidEscape n => "invalid escape sequence at offset " ++ toString n

/-- The value of an octal digit. -/
def octalDigit? (c : Char) : Option Nat :=
  if '0' ≤ c ∧ c ≤ '7' then some (c.toNat - '0'.toNat) else none

/-- The value of a hexadecimal digit of either case. -/
def hexDigit? (c : Char) : Option Nat :=
  if '0' ≤ c ∧ c ≤ '9' then some (c.toNat - '0'.toNat)
  else if 'a' ≤ c ∧ c ≤ 'f' then some (c.toNat - 'a'.toNat + 10)
  else if 'A' ≤ c ∧ c ≤ 'F' then some (c.toNat - 'A'.toNat + 10)
  else none

/-- Up to `n` further digits after an escape: the byte they build on `acc` in the given radix,
modulo 256, and how many characters they take. -/
def moreDigits (digit : Char → Option Nat) (radix : Nat) : Nat → Nat → List Char → Nat × Nat
  | 0, acc, _ => (acc, 0)
  | _ + 1, acc, [] => (acc, 0)
  | n + 1, acc, c :: cs =>
    match digit c with
    | none => (acc, 0)
    | some d =>
      let (v, k) := moreDigits digit radix n ((acc * radix + d) % 256) cs
      (v, k + 1)

/-- The byte a named escape letter stands for. -/
def namedEscape? (c : Char) : Option UInt8 :=
  match c with
  | 'r' => some 13
  | 'n' => some 10
  | 'f' => some 12
  | 't' => some 9
  | 'v' => some 11
  | 'b' => some 8
  | 'e' => some 27
  | '\\' => some 92
  | '\'' => some 39
  | '"' => some 34
  | '?' => some 63
  | _ => none

/-- The escape a backslash starts with the character `c`, followed by `rest`: its byte and how
many characters of `rest` it takes beyond `c`. -/
def escape? (c : Char) (rest : List Char) : Option (UInt8 × Nat) :=
  match namedEscape? c with
  | some b => some (b, 0)
  | none =>
    match octalDigit? c with
    | some d =>
      let (v, k) := moreDigits octalDigit? 8 2 d rest
      some (v.toUInt8, k)
    | none =>
      if c = 'x' then
        let (v, k) := moreDigits hexDigit? 16 2 0 rest
        some (v.toUInt8, k)
      else none

/-- The UTF-8 bytes of a character. -/
def charBytes (c : Char) : List UInt8 :=
  (String.singleton c).toUTF8.toList

theorem moreDigits_le (digit : Char → Option Nat) (radix : Nat) :
    ∀ (n acc : Nat) (cs : List Char), (moreDigits digit radix n acc cs).2 ≤ cs.length
  | 0, _, _ => by simp [moreDigits]
  | _ + 1, _, [] => by simp [moreDigits]
  | n + 1, acc, c :: cs => by
    simp only [moreDigits]
    cases digit c with
    | none => simp
    | some d =>
      have := moreDigits_le digit radix n ((acc * radix + d) % 256) cs
      simp only [List.length_cons]
      omega

theorem escape?_le {c : Char} {rest : List Char} {b : UInt8} {k : Nat}
    (h : escape? c rest = some (b, k)) : k ≤ rest.length := by
  unfold escape? at h
  split at h
  · simp at h; omega
  · split at h
    · simp only [Option.some.injEq, Prod.mk.injEq] at h
      rw [← h.2]; exact moreDigits_le _ _ _ _ _
    · split at h
      · simp only [Option.some.injEq, Prod.mk.injEq] at h
        rw [← h.2]; exact moreDigits_le _ _ _ _ _
      · simp at h

/-- Decodes the body of a literal delimited by quote `q`; `pos` is the byte offset of the
body's first character in the whole literal. -/
def decodeBody (q : Char) (pos : Nat) : List Char → Except Fault (List UInt8)
  | [] => .ok []
  | c :: rest =>
    if c = '\\' then
      match rest with
      | [] => .error (.invalidEscape pos)
      | e :: tail =>
        match h : escape? e tail with
        | none => .error (.invalidEscape pos)
        | some (b, k) =>
          have : k ≤ tail.length := escape?_le h
          (decodeBody q (pos + 2 + k) (tail.drop k)).map (b :: ·)
    else if c = q then .error (.embeddedQuote pos)
    else (decodeBody q (pos + c.utf8Size) rest).map (charBytes c ++ ·)
termination_by cs => cs.length
decreasing_by
  all_goals simp only [List.length_cons, List.length_drop]
  all_goals omega

/-- The characters of a literal with its two delimiting quotes, if it has them. -/
def delimited? : List Char → Option (Char × List Char)
  | q :: c :: cs =>
    if (q = '"' ∨ q = '\'') ∧ (c :: cs).getLast? = some q then some (q, (c :: cs).dropLast)
    else none
  | _ => none

/-- Reads a quoted literal into the bytes it stands for. -/
def decodeChars (cs : List Char) : Except Fault (List UInt8) :=
  match delimited? cs with
  | none => .error .notQuoted
  | some (q, body) => decodeBody q 1 body

/-- Reads a quoted literal into the bytes it stands for. -/
def decode (s : String) : Except Fault (List UInt8) :=
  decodeChars s.toList

/-- The quote the writer delimits data with: `'` when the data holds a `"` and no `'`. -/
def quoteFor (data : List UInt8) : Char :=
  if data.contains 34 && !data.contains 39 then '\'' else '"'

/-- Three octal digits for a byte. -/
def octal3 (b : UInt8) : List Char :=
  let n := b.toNat
  [Char.ofNat (48 + n / 64), Char.ofNat (48 + n / 8 % 8), Char.ofNat (48 + n % 8)]

/-- How one byte is written inside a literal delimited by `q`. -/
def encodeByte (q : Char) (b : UInt8) : List Char :=
  match b with
  | 13 => ['\\', 'r']
  | 10 => ['\\', 'n']
  | 12 => ['\\', 'f']
  | 9 => ['\\', 't']
  | 11 => ['\\', 'v']
  | 8 => ['\\', 'b']
  | 92 => ['\\', '\\']
  | _ =>
    if b.toNat = q.toNat then ['\\', q]
    else if 32 ≤ b.toNat ∧ b.toNat ≤ 126 then [Char.ofNat b.toNat]
    else '\\' :: octal3 b

/-- The characters of the literal that writes `data`. -/
def encodeChars (data : List UInt8) : List Char :=
  let q := quoteFor data
  q :: data.flatMap (encodeByte q) ++ [q]

/-- Writes bytes as a quoted literal. -/
def encode (data : List UInt8) : String :=
  String.ofList (encodeChars data)

end SimControl.Text.Quoted
