import ScriptSyntax.Diagnostic
import ScriptSyntax.Number.Double
import ScriptSyntax.Scope.Handle
import ScriptSyntax.Tree.Operator
import ScriptSyntax.Tree.Signature

/-!
The tree of a text. Expressions and statements are one type; a block is the list of its statements
with the scope they declare in.
-/

namespace ScriptSyntax

mutual

inductive Node where
  | int (value : Int) (span : Span)
  | double (value : Double) (span : Span)
  | string (value : String) (span : Span)
  | load (target : VariableId) (span : Span)
  | declare (target : VariableId) (value : Node) (span : Span)
  | assign (target : VariableId) (operator : AssignOperator) (value : Node) (span : Span)
  | unary (operator : UnaryOperator) (operand : Node) (span : Span)
  | binary (operator : BinaryOperator) (left right : Node) (span : Span)
  | call (name : String) (function : Option FunctionId) (arguments : List Node) (span : Span)
  | print (arguments : List Node) (span : Span)
  | nativeCall (signature : Signature) (symbol : String) (span : Span)
  | block (block : Block)
  | branch (condition : Node) (thenBody : Block) (elseBody : Option Block) (span : Span)
  | whileLoop (condition : Node) (body : Block) (span : Span)
  | forLoop (target : VariableId) (range : Node) (body : Block) (span : Span)
  | giveBack (value : Option Node) (span : Span)

structure Block where
  scope : ScopeId
  body : List Node
  span : Span

end

namespace Node

instance : Inhabited Node := ⟨int 0 .unknown⟩

def span : Node → Span
  | int _ s | double _ s | string _ s | load _ s | declare _ _ s | assign _ _ _ s => s
  | unary _ _ s | binary _ _ _ s | call _ _ _ s | print _ s | nativeCall _ _ s => s
  | block b => b.span
  | branch _ _ _ s | whileLoop _ _ s | forLoop _ _ _ s | giveBack _ s => s

/-- Statements that end in a block and take no semicolon. -/
def isCompound : Node → Bool
  | block _ | branch _ _ _ _ | whileLoop _ _ _ | forLoop _ _ _ _ => true
  | _ => false

/-- A tree with an operator between two others, if the kind is one that may stand there. -/
def ofBinary (kind : TokenKind) (left right : Node) (span : Span) : Except Cause Node :=
  match BinaryOperator.ofKind? kind with
  | some operator => .ok (.binary operator left right span)
  | none => .error (.illegalOperator kind.text .binary)

def ofUnary (kind : TokenKind) (operand : Node) (span : Span) : Except Cause Node :=
  match UnaryOperator.ofKind? kind with
  | some operator => .ok (.unary operator operand span)
  | none => .error (.illegalOperator kind.text .unary)

def ofAssign (target : VariableId) (kind : TokenKind) (value : Node) (span : Span) :
    Except Cause Node :=
  match AssignOperator.ofKind? kind with
  | some operator => .ok (.assign target operator value span)
  | none => .error (.illegalOperator kind.text .assignment)

end Node

instance : Inhabited Block := ⟨⟨default, [], .unknown⟩⟩

end ScriptSyntax
