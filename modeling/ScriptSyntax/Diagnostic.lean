import ScriptSyntax.Position

/-!
What can go wrong while a text is read, where, and the one-line report made of it.
-/

namespace ScriptSyntax

/-- The role an operator was tried in. -/
inductive OperatorRole where
  | unary | binary | assignment
  deriving DecidableEq

def OperatorRole.text : OperatorRole → String
  | unary => "unary"
  | binary => "binary"
  | assignment => "assignment"

inductive Cause where
  | undefinedToken (text : String)
  | unexpectedEnd
  | expected (what : String)
  | unexpectedToken (text : String)
  | integerLiteral (text : String)
  | doubleLiteral (text : String)
  | unknownVariable (name : String)
  | variableDefined (name : String)
  | functionDefined (name : String)
  | typeExpected (text : String)
  | illegalOperator (operator : String) (role : OperatorRole)
  | nestingTooDeep (limit : Nat)
  deriving DecidableEq

namespace Cause

/-- The name by which a kind of failure is reported. -/
def name : Cause → String
  | undefinedToken _ => "UndefinedToken"
  | unexpectedEnd => "UnexpectedEndOfFile"
  | expected _ => "Expected"
  | unexpectedToken _ => "UnexpectedToken"
  | integerLiteral _ => "IntegerLiteral"
  | doubleLiteral _ => "DoubleLiteral"
  | unknownVariable _ => "UnknownVariable"
  | variableDefined _ => "VariableAlreadyDefined"
  | functionDefined _ => "FunctionAlreadyDefined"
  | typeExpected _ => "TypeExpected"
  | illegalOperator _ _ => "IllegalOperator"
  | nestingTooDeep _ => "NestingTooDeep"

def message : Cause → String
  | undefinedToken text => "undefined token `" ++ text ++ "`"
  | unexpectedEnd => "unexpected end of file"
  | expected what => what ++ " expected"
  | unexpectedToken text => "unexpected token `" ++ text ++ "`"
  | integerLiteral text => "integer literal expected, found `" ++ text ++ "`"
  | doubleLiteral text => "double literal expected, found `" ++ text ++ "`"
  | unknownVariable name => "unknown variable " ++ name
  | variableDefined name => "variable " ++ name ++ " already defined"
  | functionDefined name => "function " ++ name ++ " already defined"
  | typeExpected text => "type expected, found `" ++ text ++ "`"
  | illegalOperator operator role => "illegal " ++ role.text ++ " operator `" ++ operator ++ "`"
  | nestingTooDeep limit => "nesting deeper than " ++ toString limit ++ " levels"

end Cause

/-- A cause together with the place where it was noticed. -/
structure Failure where
  cause : Cause
  location : Location
  deriving DecidableEq

def Failure.text (f : Failure) : String := f.cause.message ++ " at " ++ f.location.text

inductive Severity where
  | error | success | note | warning
  deriving DecidableEq, Inhabited

def Severity.label : Severity → String
  | error => "ERROR"
  | success => "SUCCESS"
  | note => "NOTE"
  | warning => "WARNING"

/-- The outcome of the last operation; a new one replaces it. -/
structure Status where
  severity : Severity := .success
  message : String := ""
  location : Location := .unknown
  deriving DecidableEq, Inhabited

namespace Status

def ofFailure (f : Failure) : Status := ⟨.error, f.cause.message, f.location⟩

def isOk (s : Status) : Bool := s.severity ≠ .error

/-- One line: the label, the place if it is known, the message. -/
def report (s : Status) : String :=
  match s.location.coordinates? with
  | some (line, offset) =>
    s.severity.label ++ "(" ++ toString line ++ ":" ++ toString offset ++ "): " ++ s.message
  | none => s.severity.label ++ ": " ++ s.message

end Status

end ScriptSyntax
