import ScriptSyntax.Session.Routine

/-!
Expressions, read in a session. Every operation and every parenthesis is `nested`, so that the depth
of the session is what ends the recursion; the bound on it covers all levels, and is not used up.
-/

namespace ScriptSyntax.Routine

open ScriptSyntax.Parser

def arguments (expression : Routine Node) : Routine (List Node × Location) :=
  many parenClose do
    let argument ← expression
    separator
    return [argument]

def call (expression : Routine Node) : Routine Node := do
  let name ← identifier
  let _ ← symbol .leftParen
  let function := (← get).arena.lookupFunction? (← get).scope name.text
  let (members, finish) ← arguments expression
  return .call name.text function members ⟨name.location, finish⟩

def applied (operand : Routine Node) : Routine Node := do
  let operator ← advance
  let inner ← operand
  match Node.ofUnary operator.kind inner ⟨operator.location, inner.span.finish⟩ with
  | .ok node => return node
  | .error cause => fail cause operator.location

def parenthesised (expression : Routine Node) : Routine Node := do
  let _ ← advance
  let inner ← expression
  let _ ← symbol .rightParen
  return inner

/-- An operand: `signed` reads one with an operator in front, `expression` what stands inside. -/
def operand (signed expression : Routine Node) : Routine Node := do
  match ← peek 0 with
  | .symbol .not | .symbol .minus => signed
  | .symbol .leftParen => parenthesised expression
  | .identifier =>
    if (← peek 1) = Symbol.leftParen then call expression else load
  | .intLiteral => intLiteral
  | .doubleLiteral => doubleLiteral
  | .stringLiteral => stringLiteral
  | .endOfInput => failHere .unexpectedEnd
  | _ => unexpected

/-- Goes on from a left operand as long as operators of at least the power `least` follow. -/
def climb (right : Nat → Routine Node) (least : Nat) : (bound : Nat) → Node → Routine Node
  | 0, left => return left
  | bound + 1, left => do
    let kind ← peek 0
    if kind.isBinary ∧ least ≤ kind.precedence then
      let operator ← advance
      let other ← right (kind.precedence + 1)
      let left ← combined operator left other
      climb right least bound left
    else return left

def chain (operand : Routine Node) (right : Nat → Routine Node) (least : Nat) : Routine Node := do
  let left ← operand
  climb right least (← remaining) left

mutual

/-- An expression of operators of at least the power `least`. -/
def expression : (bound : Nat) → (least : Nat) → Routine Node
  | 0, _ => tooDeep
  | bound + 1, least => nested (chain (unary bound) (expression bound) least)

def unary : (bound : Nat) → Routine Node
  | 0 => operand tooDeep tooDeep
  | bound + 1 =>
    operand (nested (applied (unary bound))) (nested (chain (unary bound) (expression bound) 1))

end

theorem unary_succ (bound : Nat) :
    unary (bound + 1) = operand (nested (applied (unary bound))) (expression (bound + 1) 1) := by
  rw [unary, expression]

end ScriptSyntax.Routine
