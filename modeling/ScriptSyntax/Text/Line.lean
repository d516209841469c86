/-!
The lines of a text: what stands between newlines, less a carriage return in front of the newline.
-/

namespace ScriptSyntax.Text

/-- A line that a newline ended. -/
def endedLine (line : List Char) : List Char :=
  if line.getLast? = some '\r' then line.dropLast else line

/-- The lines of a text whose current line begins with `line`. No line follows the last newline. -/
def linesFrom (line : List Char) : List Char → List (List Char)
  | [] => if line = [] then [] else [line]
  | c :: rest =>
    if c = '\n' then endedLine line :: linesFrom [] rest else linesFrom (line ++ [c]) rest

def lines (text : String) : List String := (linesFrom [] text.toList).map String.ofList

end ScriptSyntax.Text
