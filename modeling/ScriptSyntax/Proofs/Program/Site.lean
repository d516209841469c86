import ScriptSyntax.Proofs.Program.Occurrence

/-!
The sites of a program, where scopes are opened and names declared: blocks, declarations of
variables, and functions.
-/

namespace ScriptSyntax

/-- The blocks that a tree holds itself, in the order of the text. -/
def Node.bodies : Node → List Block
  | .block body | .whileLoop _ body _ | .forLoop _ _ body _ | .branch _ body none _ => [body]
  | .branch _ thenBody (some elseBody) _ => [thenBody, elseBody]
  | _ => []

/-- A block held by a tree of scope `owner`, a tree that declares a variable in the scope of the
block it stands in, or a function. -/
inductive Site where
  | block (owner : ScopeId) (body : Block)
  | declare (scope : ScopeId) (tree : Node)
  | function (declared : Function)

/-- A scope, the scope around it, and the place in the text where it is opened. -/
structure ScopeOpening where
  scope : ScopeId
  owner : ScopeId
  place : Location
  deriving DecidableEq

def Block.opening (owner : ScopeId) (b : Block) : ScopeOpening := ⟨b.scope, owner, b.span.start⟩

namespace Site

def ofOccurrence : ScopeId × Node → List Site
  | (s, n@(.declare ..)) => [declare s n]
  | (s, n) => n.bodies.map (block s)

/-- The stretches of text that a site and its block take up. -/
def spans : Site → List Span
  | block _ body => [body.span]
  | declare _ _ => []
  | function f => [f.span, f.body.span]

def blocks : Site → List Block
  | block _ body => [body]
  | declare _ _ => []
  | function f => [f.body]

/-- A function opens a scope for its parameters, and one inside that for its body. -/
def openings : Site → List ScopeOpening
  | block owner body => [body.opening owner]
  | declare _ _ => []
  | function f =>
    [⟨f.parameterScope, f.owner, f.span.start⟩, f.body.opening f.parameterScope]

end Site

/-- One stretch of text holds another. -/
def Span.Encloses (s t : Span) : Prop := s.start ≤ t.start ∧ t.finish ≤ s.finish

/-- Of the blocks around a stretch of text, the one that all others are around as well. -/
structure Innermost (blocks : List Block) (t : Span) (b : Block) : Prop where
  mem : b ∈ blocks
  encloses : b.span.Encloses t
  inside : ∀ c ∈ blocks, c.span.Encloses t → c.span.Encloses b.span

namespace Program

/-- The functions that a text declares. The one that its top level makes up is not among them. -/
def functions (p : Program) : List Function :=
  p.arena.declaredFunctions.toList.eraseIdx p.top.index

def sites (p : Program) : List Site :=
  p.occurrences.flatMap Site.ofOccurrence ++ p.functions.map .function

def blocks (p : Program) : List Block := p.topLevel.body :: p.sites.flatMap Site.blocks

/-- The scopes that are opened inside the root. -/
def openings (p : Program) : List ScopeOpening := p.sites.flatMap Site.openings

end Program

end ScriptSyntax
