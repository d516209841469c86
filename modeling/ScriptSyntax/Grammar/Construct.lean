import ScriptSyntax.Grammar.Statement

/-!
The constructs of the language that can be read by themselves, from wherever the cursor stands.
-/

namespace ScriptSyntax

inductive Construct where
  | topLevel | statement | block
  | functionDeclaration | variableDeclaration | assignment
  | branch | whileLoop | forLoop | returned | printed
  | expression | operation (least : Nat) | unary | call | load | intLiteral | doubleLiteral
  | arguments
  deriving DecidableEq

/-- What reading a construct yields. The declaration of a function among statements yields nothing
but the declaration. -/
inductive Reading where
  | nothing
  | node (n : Node)
  | function (f : FunctionId)
  | arguments (members : List Node) (finish : Location)
  deriving DecidableEq

/-- Reads a construct with so many levels of nesting still allowed. -/
def Construct.within (levels : Nat) (c : Construct) : Parser Reading := do
  let inner := Parser.expression levels 1
  match c with
  | topLevel => return .function (← Parser.topLevel levels)
  | statement =>
    match ← Parser.statement (Parser.block levels) inner with
    | some n => return .node n
    | none => return .nothing
  | block => return .node (.block (← Parser.block levels))
  | functionDeclaration => return .function (← Parser.functionDeclaration (Parser.block levels))
  | variableDeclaration => return .node (← Parser.variableDeclaration inner)
  | assignment => return .node (← Parser.assignment inner)
  | branch => return .node (← Parser.branch (Parser.block levels) inner)
  | whileLoop => return .node (← Parser.whileLoop (Parser.block levels) inner)
  | forLoop => return .node (← Parser.forLoop (Parser.block levels) inner)
  | returned => return .node (← Parser.returned inner)
  | printed => return .node (← Parser.printed inner)
  | expression => return .node (← inner)
  | operation least => return .node (← Parser.expression levels least)
  | unary => return .node (← Parser.unary levels)
  | call => return .node (← Parser.call inner)
  | load => return .node (← Parser.load)
  | intLiteral => return .node (← Parser.intLiteral)
  | doubleLiteral => return .node (← Parser.doubleLiteral)
  | arguments =>
    let (members, finish) ← Parser.arguments inner
    return .arguments members finish

end ScriptSyntax
