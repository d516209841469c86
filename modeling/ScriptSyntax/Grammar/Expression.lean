import ScriptSyntax.Grammar.Parser
import ScriptSyntax.Number.Literal

/-!
Expressions. An operator takes what binds tighter as its operands, so that a chain of equal ones
leans to the left. Every operation and every parenthesis opens one more level of nesting, and the
levels still allowed are the measure of the recursion.
-/

namespace ScriptSyntax.Parser

def intLiteral : Parser Node := do
  let token ← expect .intLiteral "integer literal"
  match intLiteral? token.text with
  | some value => return .int value (.single token.location)
  | none => fail (.integerLiteral token.text) token.location

def doubleLiteral : Parser Node := do
  let token ← expect .doubleLiteral "double literal"
  match doubleLiteral? token.text with
  | some value => return .double value (.single token.location)
  | none => fail (.doubleLiteral token.text) token.location

def stringLiteral : Parser Node := do
  let token ← advance
  return .string token.text (.single token.location)

/-- A name that stands for a variable. -/
def load : Parser Node := do
  let name ← identifier
  return .load (← resolve name) (.single name.location)

/-- Members of a list up to the closing parenthesis, with its place. -/
def arguments (expression : Parser Node) : Parser (List Node × Location) :=
  many parenClose do
    let argument ← expression
    separator
    return [argument]

/-- A call. The function is looked up before the arguments are read, and need not be found. -/
def call (expression : Parser Node) : Parser Node := do
  let name ← identifier
  let _ ← symbol .leftParen
  let function := (← get).arena.lookupFunction? (← scope) name.text
  let (members, finish) ← arguments expression
  return .call name.text function members ⟨name.location, finish⟩

/-- An operator in front of an operand. -/
def applied (operand : Parser Node) : Parser Node := do
  let operator ← advance
  let inner ← operand
  match Node.ofUnary operator.kind inner ⟨operator.location, inner.span.finish⟩ with
  | .ok node => return node
  | .error cause => fail cause operator.location

def parenthesised (expression : Parser Node) : Parser Node := do
  let _ ← advance
  let inner ← expression
  let _ ← symbol .rightParen
  return inner

/-- An operand: `signed` reads one with an operator in front, `expression` what stands inside. -/
def operand (signed expression : Parser Node) : Parser Node := do
  match ← peek 0 with
  | .symbol .not | .symbol .minus => signed
  | .symbol .leftParen => parenthesised expression
  | .identifier =>
    if (← peek 1) = Symbol.leftParen then call expression else load
  | .intLiteral => intLiteral
  | .doubleLiteral => doubleLiteral
  | .stringLiteral => stringLiteral
  | .endOfInput => failHere .unexpectedEnd
  | _ => unexpected

/-- The tree of an operator between two operands, from the first to the last. -/
def combined (operator : Token) (left right : Node) : Parser Node :=
  match Node.ofBinary operator.kind left right ⟨left.span.start, right.span.finish⟩ with
  | .ok node => return node
  | .error cause => fail cause operator.location

/-- Goes on from a left operand as long as operators of at least the power `least` follow. -/
def climb (right : Nat → Parser Node) (least : Nat) : (bound : Nat) → Node → Parser Node
  | 0, left => return left
  | bound + 1, left => do
    let kind ← peek 0
    if kind.isBinary ∧ least ≤ kind.precedence then
      let operator ← advance
      let other ← right (kind.precedence + 1)
      let left ← combined operator left other
      climb right least bound left
    else return left

def chain (operand : Parser Node) (right : Nat → Parser Node) (least : Nat) : Parser Node := do
  let left ← operand
  climb right least (← remaining) left

mutual

/-- An expression of operators of at least the power `least`, with `levels` more levels allowed. -/
def expression : (levels : Nat) → (least : Nat) → Parser Node
  | 0, _ => tooDeep
  | levels + 1, least => chain (unary levels) (expression levels) least

def unary : (levels : Nat) → Parser Node
  | 0 => operand tooDeep tooDeep
  | levels + 1 =>
    operand (applied (unary levels)) (chain (unary levels) (expression levels) 1)

end

theorem unary_succ (levels : Nat) :
    unary (levels + 1) = operand (applied (unary levels)) (expression (levels + 1) 1) := by
  rw [unary, expression]

end ScriptSyntax.Parser
