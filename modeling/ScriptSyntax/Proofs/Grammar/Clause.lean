import ScriptSyntax.Program.Layout

/-!
What a text says, apart from its places and its brackets: names are not resolved yet, and functions
stand among the statements they are declared among. A clause has one printed form.
-/

namespace ScriptSyntax

open Piece

/-- An expression by its names. -/
inductive Phrase where
  | int (value : Int)
  | double (value : Double)
  | string (value : String)
  | name (x : String)
  | unary (operator : UnaryOperator) (operand : Phrase)
  | binary (operator : BinaryOperator) (left right : Phrase)
  | call (callee : String) (arguments : List Phrase)

/-- A statement by its names, or the declaration of a function. -/
inductive Clause where
  | expression (e : Phrase)
  | declare (type : ValueType) (x : String) (value : Phrase)
  | assign (x : String) (operator : AssignOperator) (value : Phrase)
  | print (arguments : List Phrase)
  | giveBack (value : Option Phrase)
  | block (body : List Clause)
  | branch (condition : Phrase) (thenBody : List Clause) (elseBody : Option (List Clause))
  | whileLoop (condition : Phrase) (body : List Clause)
  | forLoop (x : String) (range : Phrase) (body : List Clause)
  | function (signature : Signature) (body : List Clause)
  | native (signature : Signature) (target : String)

namespace Phrase

mutual

def pieces : Phrase → List Piece
  | int value => [.int value]
  | double value => [.double value]
  | string value => [.string value]
  | name x => [.name x]
  | unary operator operand => symbol operator.symbol :: operand.pieces
  | binary operator left right =>
    symbol .leftParen :: left.pieces ++
      space :: symbol operator.symbol :: space :: right.pieces ++ [symbol .rightParen]
  | call callee arguments =>
    .name callee :: symbol .leftParen :: commaSeparated (piecesOf arguments) ++
      [symbol .rightParen]

def piecesOf : List Phrase → List (List Piece)
  | [] => []
  | e :: es => e.pieces :: piecesOf es

end

end Phrase

namespace Clause

/-- Lines in braces that stand at `depth`. -/
def braced (depth : Nat) (lines : List Piece) : List Piece :=
  symbol .leftBrace :: newline :: lines ++ [indent depth, symbol .rightBrace]

mutual

/-- A clause on lines of its own, indented to `depth`. -/
def pieces (depth : Nat) : Clause → List Piece
  | expression e => indent depth :: e.pieces ++ [symbol .semicolon, newline]
  | declare t x value =>
    indent depth :: type t :: space :: name x :: space :: symbol .assign :: space ::
      value.pieces ++ [symbol .semicolon, newline]
  | assign x operator value =>
    indent depth :: name x :: space :: symbol operator.symbol :: space :: value.pieces ++
      [symbol .semicolon, newline]
  | print arguments =>
    indent depth :: keyword .printKw :: symbol .leftParen ::
      commaSeparated (Phrase.piecesOf arguments) ++
      [symbol .rightParen, symbol .semicolon, newline]
  | giveBack none => [indent depth, keyword .returnKw, symbol .semicolon, newline]
  | giveBack (some value) =>
    indent depth :: keyword .returnKw :: space :: value.pieces ++ [symbol .semicolon, newline]
  | block body => indent depth :: braced depth (piecesOf (depth + 1) body) ++ [newline]
  | branch condition thenBody none =>
    indent depth :: keyword .ifKw :: space :: symbol .leftParen :: condition.pieces ++
      symbol .rightParen :: space :: braced depth (piecesOf (depth + 1) thenBody) ++ [newline]
  | branch condition thenBody (some elseBody) =>
    indent depth :: keyword .ifKw :: space :: symbol .leftParen :: condition.pieces ++
      symbol .rightParen :: space :: braced depth (piecesOf (depth + 1) thenBody) ++
      space :: keyword .elseKw :: space :: braced depth (piecesOf (depth + 1) elseBody) ++ [newline]
  | whileLoop condition body =>
    indent depth :: keyword .whileKw :: space :: symbol .leftParen :: condition.pieces ++
      symbol .rightParen :: space :: braced depth (piecesOf (depth + 1) body) ++ [newline]
  | forLoop x range body =>
    indent depth :: keyword .forKw :: space :: symbol .leftParen :: name x :: space ::
      keyword .inKw :: space :: range.pieces ++
      symbol .rightParen :: space :: braced depth (piecesOf (depth + 1) body) ++ [newline]
  | function signature body =>
    indent depth :: signature.pieces ++ braced depth (piecesOf (depth + 1) body) ++ [newline]
  | native signature target =>
    indent depth :: signature.pieces ++
      [keyword .nativeKw, space, string target, symbol .semicolon, newline]

def piecesOf (depth : Nat) : List Clause → List Piece
  | [] => []
  | c :: cs => c.pieces depth ++ piecesOf depth cs

end

end Clause

end ScriptSyntax
