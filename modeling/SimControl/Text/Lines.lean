/-!
# Lines of a text

A text is split into lines at line feeds. A carriage return just before a line feed belongs to
the line break; a final line feed ends the last line rather than starting an empty one.
-/

namespace SimControl.Text

/-- Drops one carriage return at the end of a line. -/
def dropReturn (l : String) : String :=
  if l.endsWith "\r" then String.ofList l.toList.dropLast else l

/-- The lines of a text. -/
def textLines (text : String) : List String :=
  match (text.splitOn "\n").reverse with
  | [] => []
  | last :: ended =>
    let ended := (ended.reverse.map dropReturn)
    if last.isEmpty then ended else ended ++ [last]

end SimControl.Text
