import ScriptSyntax.Number.Shortest
import ScriptSyntax.Tree.Signature

/-!
The pieces a printed program is made of: one for each token, and the blanks between them.
-/

namespace ScriptSyntax

inductive Piece where
  | symbol (s : Symbol)
  | keyword (k : Keyword)
  | type (t : ValueType)
  | name (n : String)
  | int (value : Int)
  | double (value : Double)
  | string (value : String)
  | space
  | newline
  | indent (depth : Nat)
  deriving DecidableEq

namespace Piece

instance : Coe Symbol Piece := ⟨symbol⟩

instance : Coe Keyword Piece := ⟨keyword⟩

def escape : Char → List Char
  | '\n' => ['\\', 'n']
  | '\t' => ['\\', 't']
  | '\r' => ['\\', 'r']
  | '\\' => ['\\', '\\']
  | '\'' => ['\\', '\'']
  | c => [c]

/-- A string as it is written in a text, between single quotes. -/
def quote (value : String) : String :=
  String.ofList ('\'' :: value.toList.flatMap escape ++ ['\''])

def text : Piece → String
  | symbol s => s.text
  | keyword k => k.text
  | type t => t.name
  | name n => n
  | int value => toString value
  | double value => value.text
  | string value => quote value
  | space => " "
  | newline => "\n"
  | indent depth => String.ofList (List.replicate (4 * depth) ' ')

/-- Pieces that only lay out the text. -/
def isBlank : Piece → Bool
  | space | newline | indent _ => true
  | _ => false

/-- The text of pieces written one after another. -/
def textOf (pieces : List Piece) : String := String.join (pieces.map text)

end Piece

end ScriptSyntax
