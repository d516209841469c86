import ScriptSyntax.Grammar.Construct
import ScriptSyntax.Session.Expression

/-!
Statements, blocks and declarations, read in a session, and the constructs that can be read by
themselves. Blocks are `nested`; the statements of a block, the parameters and body of a function
and a native body are each read `inNewScope`.
-/

namespace ScriptSyntax

namespace Routine

open ScriptSyntax.Parser

def variableDeclaration (expression : Routine Node) : Routine Node := do
  let typeToken ← advance
  let type ← typeOf typeToken false
  let name ← identifier
  let _ ← symbol .assign
  let value ← expression
  let declared ← define type name
  return .declare declared value ⟨typeToken.location, value.span.finish⟩

def assignment (expression : Routine Node) : Routine Node := do
  let name ← identifier
  let target ← resolve name
  let operator ← advance
  let value ← expression
  match Node.ofAssign target operator.kind value ⟨name.location, value.span.finish⟩ with
  | .ok node => return node
  | .error cause => fail cause name.location

def printed (expression : Routine Node) : Routine Node := do
  let start ← keyword .printKw
  let _ ← symbol .leftParen
  let (members, finish) ← arguments expression
  return .print members ⟨start.location, finish⟩

def returned (expression : Routine Node) : Routine Node := do
  let start ← keyword .returnKw
  if (← peek 0) = Symbol.semicolon then
    return .giveBack none (.single start.location)
  else
    let value ← expression
    return .giveBack (some value) ⟨start.location, value.span.finish⟩

def condition (expression : Routine Node) : Routine Node := do
  let _ ← symbol .leftParen
  let node ← expression
  let _ ← symbol .rightParen
  return node

def branch (block : Routine Block) (expression : Routine Node) : Routine Node := do
  let start ← keyword .ifKw
  let test ← condition expression
  let thenBody ← block
  if (← accept Keyword.elseKw) then
    let elseBody ← block
    return .branch test thenBody (some elseBody) ⟨start.location, elseBody.span.finish⟩
  else return .branch test thenBody none ⟨start.location, thenBody.span.finish⟩

def whileLoop (block : Routine Block) (expression : Routine Node) : Routine Node := do
  let start ← keyword .whileKw
  let test ← condition expression
  let body ← block
  return .whileLoop test body ⟨start.location, body.span.finish⟩

def forLoop (block : Routine Block) (expression : Routine Node) : Routine Node := do
  let start ← keyword .forKw
  let _ ← symbol .leftParen
  let target ← resolve (← identifier)
  let _ ← keyword .inKw
  let range ← expression
  let _ ← symbol .rightParen
  let body ← block
  return .forLoop target range body ⟨start.location, body.span.finish⟩

/-- A body that calls out: the symbol to call, in a block of its own. -/
def nativeBody (signature : Signature) : Routine Block := do
  let start ← keyword .nativeKw
  let target ← expect .stringLiteral "native symbol"
  let finish ← symbol .semicolon
  let span : Span := ⟨start.location, finish.location⟩
  inNewScope do
    return ⟨← scope, [.nativeCall signature target.text span], span⟩

def functionBody (signature : Signature) (block : Routine Block) : Routine Block := do
  if (← peek 0) = Keyword.nativeKw then nativeBody signature else block

/-- A function is declared in the scope around that of its parameters, before its body is read. -/
def functionDeclaration (block : Routine Block) : Routine FunctionId := do
  let start ← keyword .functionKw
  let returns ← typeOf (← advance) true
  let name ← identifier
  let _ ← symbol .leftParen
  let (parameters, _) ← many parenClose do return [← parameter]
  let signature : Signature :=
    ⟨returns, name.text, parameters.map fun (type, name) => ⟨type, name.text⟩⟩
  let owner ← scope
  inNewScope do
    defineAll parameters
    let f ← defineFunction owner signature name start
    let body ← functionBody signature block
    modify fun s =>
      { s with arena := s.arena.setBody f body ⟨start.location, body.span.finish⟩ }
    return f

def terminated (r : Routine Node) : Routine (Option Node) := do
  let node ← r
  let _ ← symbol .semicolon
  return some node

/-- A statement. The declaration of a function leaves no tree behind. -/
def statement (block : Routine Block) (expression : Routine Node) : Routine (Option Node) := do
  match ← peek 0 with
  | .keyword .functionKw =>
    let _ ← functionDeclaration block
    return none
  | .symbol .leftBrace => return some (.block (← block))
  | .keyword .ifKw => return some (← branch block expression)
  | .keyword .whileKw => return some (← whileLoop block expression)
  | .keyword .forKw => return some (← forLoop block expression)
  | .keyword .intKw | .keyword .doubleKw | .keyword .stringKw | .keyword .voidKw =>
    terminated (variableDeclaration expression)
  | .keyword .printKw => terminated (printed expression)
  | .keyword .returnKw => terminated (returned expression)
  | .keyword _ => unexpected
  | .identifier =>
    if (← peek 1).isAssignment then terminated (assignment expression) else terminated expression
  | _ => terminated expression

/-- A statement, or a semicolon by itself. -/
def statementItem (statement : Routine (Option Node)) : Routine (List Node) := do
  if (← accept Symbol.semicolon) then return []
  else return (← statement).toList

/-- Statements in braces, in a scope of their own. -/
def braced (statement : Routine (Option Node)) : Routine Block := do
  let start ← symbol .leftBrace
  inNewScope do
    let (body, finish) ← many braceClose (statementItem statement)
    return ⟨← scope, body, ⟨start.location, finish⟩⟩

def block : (bound : Nat) → Routine Block
  | 0 => tooDeep
  | bound + 1 => nested (braced (statement (block bound) (expression bound 1)))

/-- All the statements of a text, as the body of a function that no scope binds. -/
def topLevel (bound : Nat) : Routine FunctionId := do
  let root ← scope
  let start ← here
  let (body, finish) ← many endClose (statementItem (statement (block bound) (expression bound 1)))
  let span : Span := ⟨start, finish⟩
  let signature : Signature := ⟨.void, Program.topName, []⟩
  let (f, arena) := (← get).arena.addFunction ⟨signature, root, root, ⟨root, body, span⟩, span⟩
  modify fun s => { s with arena }
  return f

end Routine

/-- Reads a construct from wherever the session stands. -/
def Construct.routine (bound : Nat) (c : Construct) : Routine Reading := do
  let inner := Routine.expression bound 1
  match c with
  | topLevel => return .function (← Routine.topLevel bound)
  | statement =>
    match ← Routine.statement (Routine.block bound) inner with
    | some n => return .node n
    | none => return .nothing
  | block => return .node (.block (← Routine.block bound))
  | functionDeclaration => return .function (← Routine.functionDeclaration (Routine.block bound))
  | variableDeclaration => return .node (← Routine.variableDeclaration inner)
  | assignment => return .node (← Routine.assignment inner)
  | branch => return .node (← Routine.branch (Routine.block bound) inner)
  | whileLoop => return .node (← Routine.whileLoop (Routine.block bound) inner)
  | forLoop => return .node (← Routine.forLoop (Routine.block bound) inner)
  | returned => return .node (← Routine.returned inner)
  | printed => return .node (← Routine.printed inner)
  | expression => return .node (← inner)
  | operation least => return .node (← Routine.expression bound least)
  | unary => return .node (← Routine.unary bound)
  | call => return .node (← Routine.call inner)
  | load => return .node (← Parser.load)
  | intLiteral => return .node (← Parser.intLiteral)
  | doubleLiteral => return .node (← Parser.doubleLiteral)
  | arguments =>
    let (members, finish) ← Routine.arguments inner
    return .arguments members finish

end ScriptSyntax
