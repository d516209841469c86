import ScriptSyntax.Grammar.Expression

/-!
Statements, blocks and declarations. A block and a function each open a scope; a name is declared
where its declaration stands, a variable behind its value and a function in front of its body.
-/

namespace ScriptSyntax.Parser

/-- The type that a token names. -/
def typeOf (token : Token) (voidAllowed : Bool) : Parser ValueType :=
  match ValueType.ofKind? token.kind with
  | some type =>
    if type = .void ∧ voidAllowed = false then fail (.typeExpected token.display) token.location
    else return type
  | none => fail (.typeExpected token.display) token.location

/-- A variable is declared only once its value is read, so the value cannot refer to it. -/
def variableDeclaration (expression : Parser Node) : Parser Node := do
  let typeToken ← advance
  let type ← typeOf typeToken false
  let name ← identifier
  let _ ← symbol .assign
  let value ← expression
  let declared ← define type name
  return .declare declared value ⟨typeToken.location, value.span.finish⟩

def assignment (expression : Parser Node) : Parser Node := do
  let name ← identifier
  let target ← resolve name
  let operator ← advance
  let value ← expression
  match Node.ofAssign target operator.kind value ⟨name.location, value.span.finish⟩ with
  | .ok node => return node
  | .error cause => fail cause name.location

def printed (expression : Parser Node) : Parser Node := do
  let start ← keyword .printKw
  let _ ← symbol .leftParen
  let (members, finish) ← arguments expression
  return .print members ⟨start.location, finish⟩

def returned (expression : Parser Node) : Parser Node := do
  let start ← keyword .returnKw
  if (← peek 0) = Symbol.semicolon then
    return .giveBack none (.single start.location)
  else
    let value ← expression
    return .giveBack (some value) ⟨start.location, value.span.finish⟩

def condition (expression : Parser Node) : Parser Node := do
  let _ ← symbol .leftParen
  let node ← expression
  let _ ← symbol .rightParen
  return node

def branch (block : Parser Block) (expression : Parser Node) : Parser Node := do
  let start ← keyword .ifKw
  let test ← condition expression
  let thenBody ← block
  if (← accept Keyword.elseKw) then
    let elseBody ← block
    return .branch test thenBody (some elseBody) ⟨start.location, elseBody.span.finish⟩
  else return .branch test thenBody none ⟨start.location, thenBody.span.finish⟩

def whileLoop (block : Parser Block) (expression : Parser Node) : Parser Node := do
  let start ← keyword .whileKw
  let test ← condition expression
  let body ← block
  return .whileLoop test body ⟨start.location, body.span.finish⟩

/-- The variable of the loop is not declared by it. -/
def forLoop (block : Parser Block) (expression : Parser Node) : Parser Node := do
  let start ← keyword .forKw
  let _ ← symbol .leftParen
  let target ← resolve (← identifier)
  let _ ← keyword .inKw
  let range ← expression
  let _ ← symbol .rightParen
  let body ← block
  return .forLoop target range body ⟨start.location, body.span.finish⟩

/-- A parameter's type and the token of its name. -/
def parameter : Parser (ValueType × Token) := do
  let type ← typeOf (← advance) false
  let name ← identifier
  separator
  return (type, name)

/-- A body that calls out: the symbol to call, in a block of its own. -/
def nativeBody (signature : Signature) : Parser Block := do
  let start ← keyword .nativeKw
  let target ← expect .stringLiteral "native symbol"
  let finish ← symbol .semicolon
  let span : Span := ⟨start.location, finish.location⟩
  inNewScope do
    return ⟨← scope, [.nativeCall signature target.text span], span⟩

/-- Declares a function in `owner`, to be given its body later. -/
def defineFunction (owner : ScopeId) (signature : Signature) (name start : Token) :
    Parser FunctionId := do
  let parameterScope ← scope
  let span := Span.single start.location
  let function : Function := ⟨signature, owner, parameterScope, ⟨parameterScope, [], span⟩, span⟩
  match (← get).arena.defineFunction owner function false with
  | .ok (f, arena) =>
    modify fun s => { s with arena }
    return f
  | .error _ => fail (.functionDefined name.text) name.location

/-- Declares variables in the current scope, in order. -/
def defineAll : List (ValueType × Token) → Parser Unit
  | [] => return
  | (type, name) :: rest => do
    let _ ← define type name
    defineAll rest

/-- A function is declared before its body is read, so the body can call it. -/
def functionDeclaration (block : Parser Block) : Parser FunctionId := do
  let start ← keyword .functionKw
  let returns ← typeOf (← advance) true
  let name ← identifier
  let _ ← symbol .leftParen
  let (parameters, _) ← many parenClose do return [← parameter]
  let signature : Signature :=
    ⟨returns, name.text, parameters.map fun (type, name) => ⟨type, name.text⟩⟩
  let owner ← scope
  inNewScope do
    defineAll parameters
    let f ← defineFunction owner signature name start
    let body ← if (← peek 0) = Keyword.nativeKw then nativeBody signature else block
    modify fun s =>
      { s with arena := s.arena.setBody f body ⟨start.location, body.span.finish⟩ }
    return f

/-- A statement that a semicolon ends. -/
def terminated (p : Parser Node) : Parser (Option Node) := do
  let node ← p
  let _ ← symbol .semicolon
  return some node

/-- A statement. The declaration of a function leaves no tree behind. -/
def statement (block : Parser Block) (expression : Parser Node) : Parser (Option Node) := do
  match ← peek 0 with
  | .keyword .functionKw =>
    let _ ← functionDeclaration block
    return none
  | .symbol .leftBrace => return some (.block (← block))
  | .keyword .ifKw => return some (← branch block expression)
  | .keyword .whileKw => return some (← whileLoop block expression)
  | .keyword .forKw => return some (← forLoop block expression)
  | .keyword .intKw | .keyword .doubleKw | .keyword .stringKw | .keyword .voidKw =>
    terminated (variableDeclaration expression)
  | .keyword .printKw => terminated (printed expression)
  | .keyword .returnKw => terminated (returned expression)
  | .keyword _ => unexpected
  | .identifier =>
    if (← peek 1).isAssignment then terminated (assignment expression) else terminated expression
  | _ => terminated expression

/-- A statement, or a semicolon by itself. -/
def statementItem (statement : Parser (Option Node)) : Parser (List Node) := do
  if (← accept Symbol.semicolon) then return []
  else return (← statement).toList

def braceClose : Parser (Option Location) := do
  match ← peek 0 with
  | .symbol .rightBrace => return some (← advance).location
  | .endOfInput => failHere (.expected Symbol.rightBrace.text)
  | _ => return none

/-- Statements in braces, in a scope of their own. -/
def braced (statement : Parser (Option Node)) : Parser Block := do
  let start ← symbol .leftBrace
  inNewScope do
    let (body, finish) ← many braceClose (statementItem statement)
    return ⟨← scope, body, ⟨start.location, finish⟩⟩

/-- A block, with `levels` more levels of nesting allowed. -/
def block : (levels : Nat) → Parser Block
  | 0 => tooDeep
  | levels + 1 => braced (statement (block levels) (expression levels 1))

def endClose : Parser (Option Location) := do
  if (← peek 0) = .endOfInput then return some (← here) else return none

/-- All the statements of a text, as the body of a function that no scope binds. -/
def topLevel (limit : Nat) : Parser FunctionId := do
  let root ← scope
  let start ← here
  let (body, finish) ← many endClose (statementItem (statement (block limit) (expression limit 1)))
  let span : Span := ⟨start, finish⟩
  let signature : Signature := ⟨.void, Program.topName, []⟩
  let (f, arena) := (← get).arena.addFunction ⟨signature, root, root, ⟨root, body, span⟩, span⟩
  modify fun s => { s with arena }
  return f

end ScriptSyntax.Parser
