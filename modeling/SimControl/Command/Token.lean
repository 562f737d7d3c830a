import SimControl.Text.Numeral
/-!
# Tokens of the command language

One command line is read as a sequence of lexemes, each with its position. The classes of
tokens:

* a quoted string `"…"` or `'…'`, where a backslash takes the next character (not a line feed)
  with it; escapes are left for the quoted-string reader;
* a repeat count `[n]`, blanks or tabs allowed around the decimal digits;
* a key and value `KEY=n`, letters then decimal digits;
* a switch `-RW`, a minus sign and letters;
* a semicolon and a comma, each a token of its own;
* a word: a run of anything but blanks, `;`, `,`, quotes and `[`.

Blanks (space, tab, carriage return, line feed, form feed) between tokens are skipped. The
longest token wins; a key and value or a switch wins over a word of the same length. Where no
token can be read, the lexeme is the text read up to the last complete step of the token it
could still have begun, and reading goes on after it; a count or a value beyond 32 bits makes
the whole run such text.
-/

namespace SimControl.Command

/-- A token of the command language. -/
inductive Token where
  /-- A run of characters that are no blank, punctuation, quote or bracket. -/
  | word (text : String)
  /-- A quoted string, quotes included. -/
  | quoted (text : String)
  /-- A minus sign and letters. -/
  | switch (text : String)
  /-- A repeat count in brackets. -/
  | count (value : Nat)
  /-- A key and a decimal value joined by an equals sign. -/
  | keyValue (key : String) (value : Nat)
  /-- A semicolon. -/
  | semicolon
  /-- A comma. -/
  | comma
  deriving DecidableEq, Inhabited

/-- How a token is written back: a count in brackets, a value in decimal, all else as read. -/
def Token.render : Token → String
  | .word s | .quoted s | .switch s => s
  | .count n => "[" ++ toString n ++ "]"
  | .keyValue k v => k ++ "=" ++ toString v
  | .semicolon => ";"
  | .comma => ","

/-- A token, or text that could not be made into one. -/
inductive Lexeme where
  | token (t : Token)
  | bad (text : String)
  deriving DecidableEq, Inhabited

/-- A lexeme with the character positions it covers, end excluded. -/
structure Lexed where
  lexeme : Lexeme
  start : Nat
  stop : Nat
  deriving DecidableEq, Inhabited

/-- Blanks between tokens. -/
def isGap (c : Char) : Bool :=
  c = ' ' || c = '\t' || c = '\r' || c = '\n' || c = '\x0c'

/-- Characters a word may hold. -/
def isWordChar (c : Char) : Bool :=
  !(isGap c || c = ';' || c = ',' || c = '"' || c = '\'' || c = '[')

/-- An ASCII letter of either case. -/
def isLetter (c : Char) : Bool := ('A' ≤ c && c ≤ 'Z') || ('a' ≤ c && c ≤ 'z')

/-- A decimal digit. -/
def isDigit (c : Char) : Bool := '0' ≤ c && c ≤ '9'

/-- A blank or tab, allowed inside the brackets of a count. -/
def isPad (c : Char) : Bool := c = ' ' || c = '\t'

/-- What one scan found: the token, or `none` for text that makes none, and how many
characters it covers beyond the first. -/
abbrev Found := Option Token × Nat

/-- The characters of a quoted string after its opening quote `q`: how many belong to the
token, and whether its closing quote is among them. A backslash and the character it takes
are read as one step, so a backslash with nothing after it, or with a line feed, is not part of
the text read. -/
def quotedRun (q : Char) : List Char → Nat × Bool
  | [] => (0, false)
  | c :: cs =>
    if c = q then (1, true)
    else if c = '\\' then
      match cs with
      | [] => (0, false)
      | d :: ds =>
        if d = '\n' then (0, false)
        else
          let (n, closed) := quotedRun q ds
          (n + 2, closed)
    else
      let (n, closed) := quotedRun q cs
      (n + 1, closed)

/-- The value of decimal digits. -/
def decimalValue (ds : List Char) : Nat :=
  ds.foldl (fun acc d => acc * 10 + (d.toNat - '0'.toNat)) 0

/-- A count after its opening bracket: pad, digits, pad, closing bracket. -/
def countRun (cs : List Char) : Found :=
  let pad1 := cs.takeWhile isPad
  let r1 := cs.dropWhile isPad
  let digits := r1.takeWhile isDigit
  let r2 := r1.dropWhile isDigit
  let pad2 := r2.takeWhile isPad
  let r3 := r2.dropWhile isPad
  if digits.isEmpty then (none, pad1.length)
  else
    let taken := pad1.length + digits.length + pad2.length
    match r3 with
    | ']' :: _ =>
      let n := decimalValue digits
      (if n < 4294967296 then some (.count n) else none, taken + 1)
    | _ => (none, taken)

/-- The text is a switch: a minus sign and one or more letters. -/
def isSwitchText : List Char → Bool
  | '-' :: c :: cs => (c :: cs).all isLetter
  | _ => false

/-- The text is a key and value: letters, an equals sign, then decimal digits. -/
def keyValueParts (cs : List Char) : Option (List Char × List Char) :=
  let key := cs.takeWhile isLetter
  match cs.dropWhile isLetter with
  | '=' :: ds => if !key.isEmpty && !ds.isEmpty && ds.all isDigit then some (key, ds) else none
  | _ => none

/-- The token a run of word characters makes: a switch or a key and value if the whole run
is one, a word otherwise. -/
def classifyWord (run : List Char) : Option Token :=
  if isSwitchText run then some (.switch (String.ofList run))
  else
    match keyValueParts run with
    | some (k, ds) =>
      let v := decimalValue ds
      if v < 4294967296 then some (.keyValue (String.ofList k) v) else none
    | none => some (.word (String.ofList run))

/-- Scans the lexeme that starts with the character `c`, a character that is no blank;
`cs` is the text after `c`. -/
def scanAt (c : Char) (cs : List Char) : Found :=
  if c = ';' then (some .semicolon, 0)
  else if c = ',' then (some .comma, 0)
  else if c = '"' ∨ c = '\'' then
    let (n, closed) := quotedRun c cs
    (if closed then some (.quoted (String.ofList (c :: cs.take n))) else none, n)
  else if c = '[' then countRun cs
  else
    let n := (cs.takeWhile isWordChar).length
    (classifyWord (c :: cs.take n), n)

/-- Reads lexemes from `cs`, which starts at character position `pos`. -/
def scanFrom (pos : Nat) : List Char → List Lexed
  | [] => []
  | c :: cs =>
    if isGap c then scanFrom (pos + 1) cs
    else
      let (found, n) := scanAt c cs
      let lexeme := match found with
        | some t => Lexeme.token t
        | none => Lexeme.bad (String.ofList (c :: cs.take n))
      ⟨lexeme, pos, pos + n + 1⟩ :: scanFrom (pos + n + 1) (cs.drop n)
termination_by cs => cs.length
decreasing_by
  all_goals simp only [List.length_cons, List.length_drop]
  all_goals omega

/-- The lexemes of a text, with their character positions. -/
def scan (s : String) : List Lexed :=
  scanFrom 0 s.toList

/-- Moves along the characters `cs`, which start at character position `i` and byte offset
`b`, up to character position `target`. -/
def advanceTo : List Char → Nat → Nat → Nat → List Char × Nat × Nat
  | [], i, b, _ => ([], i, b)
  | c :: rest, i, b, target =>
    if target ≤ i then (c :: rest, i, b) else advanceTo rest (i + 1) (b + c.utf8Size) target

/-- Each lexeme with the byte offsets it covers, end excluded, found in one pass along the
characters `cs` that start at character position `i` and byte offset `b`; the lexemes stand in
the order of the text. -/
def spansFrom (acc : List (Lexeme × Nat × Nat)) (cs : List Char) (i b : Nat) :
    List Lexed → List (Lexeme × Nat × Nat)
  | [] => acc.reverse
  | l :: ls =>
    let (cs, i, b) := advanceTo cs i b l.start
    let (cs', i', b') := advanceTo cs i b l.stop
    spansFrom ((l.lexeme, b, b') :: acc) cs' i' b' ls

/-- The lexemes of a text with the byte offsets of the UTF-8 text they cover. -/
def scanBytes (s : String) : List (Lexeme × Nat × Nat) :=
  spansFrom [] s.toList 0 0 (scan s)

/-- The text of the characters of `s` from position `i` on. -/
def textFrom (s : String) (i : Nat) : String :=
  String.ofList (s.toList.drop i)

end SimControl.Command
