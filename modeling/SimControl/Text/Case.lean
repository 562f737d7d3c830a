/-!
# Letter case

Command words and line names are compared without regard to the case of ASCII letters; other
characters compare as they are.
-/

namespace SimControl.Text

/-- A text with its ASCII letters upper-cased. -/
def upperAscii (w : String) : String := String.ofList (w.toList.map Char.toUpper)

/-- Two texts are equal when their ASCII letters are upper-cased. -/
def sameAscii (a b : String) : Bool := upperAscii a == upperAscii b

end SimControl.Text
