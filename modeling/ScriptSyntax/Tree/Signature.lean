import ScriptSyntax.Token.Kind

/-!
The types of values, and what a function declares about itself.
-/

namespace ScriptSyntax

inductive ValueType where
  | invalid | double | int | string | void
  deriving DecidableEq, Inhabited

namespace ValueType

def all : List ValueType := [invalid, double, int, string, void]

def name : ValueType → String
  | invalid => "<invalid>"
  | double => "double"
  | int => "int"
  | string => "string"
  | void => "void"

def ofName? (name : String) : Option ValueType := all.find? (·.name = name)

/-- The type that a keyword names. -/
def ofKind? : TokenKind → Option ValueType
  | .keyword .doubleKw => some double
  | .keyword .intKw => some int
  | .keyword .stringKw => some string
  | .keyword .voidKw => some void
  | _ => none

theorem isSome_ofKind? (k : TokenKind) : (ofKind? k).isSome = k.isTypeName := by
  cases k with
  | keyword k => cases k <;> rfl
  | _ => rfl

end ValueType

structure Parameter where
  type : ValueType
  name : String
  deriving DecidableEq, Inhabited

structure Signature where
  returns : ValueType
  name : String
  parameters : List Parameter := []
  deriving DecidableEq, Inhabited

end ScriptSyntax
