import ScriptSyntax.Program.Basic
import ScriptSyntax.Program.Piece

/-!
A program as text that reads back as the same program. Every operation between two operands stands
in parentheses, and a declared function in front of the first statement that begins behind it.
-/

namespace ScriptSyntax

open Piece

/-- Lists with a comma and a space between their members. -/
def commaSeparated : List (List Piece) → List Piece
  | [] => []
  | [item] => item
  | item :: items => item ++ symbol .comma :: space :: commaSeparated items

/-- What a tree is printed with: the arena its handles belong to, and the pieces of a declared
function at a depth of indentation. -/
structure Layout where
  arena : Arena
  function : Nat → FunctionId → List Piece

namespace Layout

def variableName (l : Layout) (x : VariableId) : Piece := name (l.arena.variableAt x).name

mutual

/-- A tree on a line already indented to `depth`, with no newline at its end. -/
def node (l : Layout) (depth : Nat) : Node → List Piece
  | .int value _ => [int value]
  | .double value _ => [double value]
  | .string value _ => [string value]
  | .load x _ => [l.variableName x]
  | .declare x value _ =>
    type (l.arena.variableAt x).type :: space :: l.variableName x :: space :: symbol .assign ::
      space :: l.node depth value
  | .assign x operator value _ =>
    l.variableName x :: space :: symbol operator.symbol :: space :: l.node depth value
  | .unary operator operand _ => symbol operator.symbol :: l.node depth operand
  | .binary operator left right _ =>
    symbol .leftParen :: l.node depth left ++
      space :: symbol operator.symbol :: space :: l.node depth right ++ [symbol .rightParen]
  | .call callee _ arguments _ =>
    name callee :: symbol .leftParen :: commaSeparated (l.nodes depth arguments) ++
      [symbol .rightParen]
  | .print arguments _ =>
    keyword .printKw :: symbol .leftParen :: commaSeparated (l.nodes depth arguments) ++
      [symbol .rightParen]
  | .nativeCall _ target _ => [keyword .nativeKw, space, string target]
  | .block body => l.block depth body
  | .branch condition thenBody none _ =>
    keyword .ifKw :: space :: symbol .leftParen :: l.node depth condition ++
      symbol .rightParen :: space :: l.block depth thenBody
  | .branch condition thenBody (some elseBody) _ =>
    keyword .ifKw :: space :: symbol .leftParen :: l.node depth condition ++
      symbol .rightParen :: space :: l.block depth thenBody ++
      space :: keyword .elseKw :: space :: l.block depth elseBody
  | .whileLoop condition body _ =>
    keyword .whileKw :: space :: symbol .leftParen :: l.node depth condition ++
      symbol .rightParen :: space :: l.block depth body
  | .forLoop x range body _ =>
    keyword .forKw :: space :: symbol .leftParen :: l.variableName x :: space ::
      keyword .inKw :: space :: l.node depth range ++
      symbol .rightParen :: space :: l.block depth body
  | .giveBack none _ => [keyword .returnKw]
  | .giveBack (some value) _ => keyword .returnKw :: space :: l.node depth value

/-- A block in braces, its statements one step deeper. -/
def block (l : Layout) (depth : Nat) : Block → List Piece
  | ⟨scope, body, _⟩ =>
    symbol .leftBrace :: newline ::
      l.statements (depth + 1) (l.arena.scopeAt scope).functionBindings.ids body ++
      [indent depth, symbol .rightBrace]

def nodes (l : Layout) (depth : Nat) : List Node → List (List Piece)
  | [] => []
  | n :: ns => l.node depth n :: l.nodes depth ns

/-- Statements on lines of their own, and the functions declared among them in their places. -/
def statements (l : Layout) (depth : Nat) (functions : List FunctionId) : List Node → List Piece
  | [] => functions.flatMap (l.function depth)
  | n :: ns =>
    let earlier := fun f => decide ((l.arena.functionAt f).span.start < n.span.start)
    (functions.takeWhile earlier).flatMap (l.function depth) ++ indent depth :: l.node depth n ++
      (if n.isCompound then [newline] else [symbol .semicolon, newline]) ++
      l.statements depth (functions.dropWhile earlier) ns

end

end Layout

def Parameter.pieces (p : Parameter) : List Piece := [.type p.type, space, .name p.name]

/-- A declaration up to its body. -/
def Signature.pieces (s : Signature) : List Piece :=
  keyword .functionKw :: space :: .type s.returns :: space :: .name s.name :: symbol .leftParen ::
    commaSeparated (s.parameters.map Parameter.pieces) ++ [symbol .rightParen, space]

namespace Arena

/-- A function declared in the arena. Declarations nest no deeper than there are functions, which
`nesting` counts down. -/
def functionPieces (a : Arena) : Nat → Nat → FunctionId → List Piece
  | 0, _, _ => []
  | nesting + 1, depth, f =>
    let declared := a.functionAt f
    indent depth :: declared.signature.pieces ++
      match declared.body.body with
      | [.nativeCall _ target _] =>
        [keyword .nativeKw, space, string target, symbol .semicolon, newline]
      | _ => Layout.block ⟨a, a.functionPieces nesting⟩ depth declared.body ++ [newline]

def layout (a : Arena) : Layout := ⟨a, a.functionPieces a.declaredFunctions.size⟩

/-- A single tree as text. -/
def nodeText (a : Arena) (n : Node) : String := textOf (a.layout.node 0 n)

end Arena

namespace Program

def pieces (p : Program) : List Piece :=
  let body := p.topLevel.body
  p.arena.layout.statements 0 (p.arena.scopeAt body.scope).functionBindings.ids body.body

def text (p : Program) : String := textOf p.pieces

end Program

end ScriptSyntax
