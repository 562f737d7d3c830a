/-!
# Blank characters

Command text is trimmed of the characters that carry the Unicode White_Space property, not only
of the ASCII blanks that core's `Char.isWhitespace` knows. This module holds that class as a
table and the trimming functions built on it.

* `isBlank_of_isWhitespace`: every character core calls whitespace is blank here too.
-/

namespace SimControl.Text

/-- A character is blank when it has the Unicode White_Space property: the ASCII controls
from tab to carriage return, space, next line, no-break space, ogham space, the spaces from
en quad to hair space, the line and paragraph separators, the narrow no-break space, the
medium mathematical space and the ideographic space. -/
def isBlank (c : Char) : Bool :=
  let n := c.toNat
  (9 ≤ n && n ≤ 13) || n == 32 || n == 0x85 || n == 0xA0 || n == 0x1680 ||
    (0x2000 ≤ n && n ≤ 0x200A) || n == 0x2028 || n == 0x2029 || n == 0x202F ||
    n == 0x205F || n == 0x3000

/-- The characters of a text with its leading and trailing blanks removed. -/
def trimChars (cs : List Char) : List Char :=
  ((cs.dropWhile isBlank).reverse.dropWhile isBlank).reverse

/-- A text with its leading and trailing blanks removed. A text that neither starts nor ends
with a blank is its own trimming, which is found without walking it. -/
def trimBlank (s : String) : String :=
  if !isBlank s.front && !isBlank s.back then s
  else String.ofList (trimChars s.toList)

theorem isBlank_of_isWhitespace (c : Char) (h : c.isWhitespace = true) : isBlank c = true := by
  simp only [Char.isWhitespace, Bool.or_eq_true, decide_eq_true_eq] at h
  rcases h with ((h | h) | h) | h <;> subst h <;> decide

end SimControl.Text
