import ScriptSyntax.Text.Blank

/-!
The nesting limit, and its setting as a text. A setting that is no number of at most 64 bits is
ignored.
-/

namespace ScriptSyntax

def defaultLimit : Nat := 128

namespace Text

/-- The number that decimal digits write, if there are any and nothing else. -/
def decimal? : List Char → Option Nat
  | [] => none
  | digits =>
    if digits.all Char.isDigit then
      some (digits.foldl (fun n c => 10 * n + (c.toNat - '0'.toNat)) 0)
    else none

/-- A number of at most 64 bits, with white space around it and a plus sign if wanted. -/
def word? (text : String) : Option Nat :=
  let unsigned := match trimmed text.toList with
    | '+' :: rest => rest
    | chars => chars
  (decimal? unsigned).filter (· < Nat.pow 2 64)

end Text

def limitOf (setting : Option String) : Nat := (setting.bind Text.word?).getD defaultLimit

end ScriptSyntax
