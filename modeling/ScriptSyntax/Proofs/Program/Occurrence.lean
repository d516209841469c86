import ScriptSyntax.Program.Basic

/-!
The trees that occur in a program, each with the scope of the block it stands in, and the
declarations that a place in the text comes behind.
-/

namespace ScriptSyntax

mutual

/-- A tree in a block of scope `s`, and all the trees inside it. -/
def Node.occurrences (s : ScopeId) : Node → List (ScopeId × Node)
  | n@(.int ..) | n@(.double ..) | n@(.string ..) | n@(.load ..) | n@(.nativeCall ..)
  | n@(.giveBack none _) => [(s, n)]
  | n@(.declare _ value _) | n@(.assign _ _ value _) | n@(.unary _ value _)
  | n@(.giveBack (some value) _) => (s, n) :: value.occurrences s
  | n@(.binary _ left right _) => (s, n) :: left.occurrences s ++ right.occurrences s
  | n@(.call _ _ arguments _) | n@(.print arguments _) => (s, n) :: occurrencesOf s arguments
  | n@(.block body) => (s, n) :: body.occurrences
  | n@(.branch condition thenBody none _) =>
    (s, n) :: condition.occurrences s ++ thenBody.occurrences
  | n@(.branch condition thenBody (some elseBody) _) =>
    (s, n) :: condition.occurrences s ++ thenBody.occurrences ++ elseBody.occurrences
  | n@(.whileLoop condition body _) | n@(.forLoop _ condition body _) =>
    (s, n) :: condition.occurrences s ++ body.occurrences

def Block.occurrences : Block → List (ScopeId × Node)
  | ⟨scope, body, _⟩ => occurrencesOf scope body

def occurrencesOf (s : ScopeId) : List Node → List (ScopeId × Node)
  | [] => []
  | n :: ns => n.occurrences s ++ occurrencesOf s ns

end

/-- The variable that a tree refers to and does not declare. -/
def Node.referent? : Node → Option VariableId
  | .load x _ | .assign x _ _ _ | .forLoop x _ _ _ => some x
  | _ => none

def Node.declared? : Node → Option VariableId
  | .declare x _ _ => some x
  | _ => none

def Node.isExpression : Node → Bool
  | .int .. | .double .. | .string .. | .load .. | .unary .. | .binary .. | .call .. => true
  | _ => false

/-- Whether some function has the variable as a parameter. -/
def Arena.isParameter (a : Arena) (v : VariableId) : Bool :=
  a.declaredFunctions.any fun f => f.signature.parameters.any fun q =>
    (a.scopeAt f.parameterScope).variableBindings.get? q.name = some v

namespace Program

/-- What occurs at the top level and in the bodies of the functions. -/
def occurrences (p : Program) : List (ScopeId × Node) :=
  p.arena.declaredFunctions.toList.flatMap fun f => f.body.occurrences

/-- Whether a variable can be referred to from `l` on: it is a parameter, or its declaration ends in
front of `l`. -/
def variableVisible (p : Program) (l : Location) (v : VariableId) : Bool :=
  p.arena.isParameter v ||
    p.occurrences.any fun o => o.2.declared? = some v && o.2.span.finish < l

/-- Whether a function can be called from `l` on: its declaration begins in front of `l`. -/
def functionVisible (p : Program) (l : Location) (f : FunctionId) : Bool :=
  (p.arena.functionAt f).span.start < l

end Program

end ScriptSyntax
