import ScriptSyntax.Scope.Arena

/-!
A program: every scope and declaration of a text, and the function that its top level makes up.
-/

namespace ScriptSyntax

structure Program where
  arena : Arena
  top : FunctionId
  root : ScopeId
  deriving DecidableEq, Inhabited

namespace Program

/-- The name of the function made of the top-level statements. -/
def topName : String := "_start"

def topLevel (p : Program) : Function := p.arena.functionAt p.top

end Program

end ScriptSyntax
