import ScriptSyntax.Grammar.Statement

/-!
The state of a session, and the routines that change it. A parser is given the current scope from
outside and the levels of nesting it may open; a routine finds both in the session, a scope and a
depth that it moves on the way in and has to move back on every way out.
-/

namespace ScriptSyntax

/-- The tokens of one text, the slot of the next one, the declarations made so far, the innermost
open scope and the number of levels of nesting that are open. -/
structure Session where
  limit : Nat
  tokens : TokenList := {}
  position : Nat := 0
  arena : Arena := .fresh
  scope : ScopeId := Arena.root
  depth : Nat := 0

namespace Session

/-- Opens a new scope inside the current one. -/
def pushScope (s : Session) : Session :=
  let (scope, arena) := s.arena.pushScope (some s.scope)
  { s with scope, arena }

/-- Closes the current scope, whichever that is: the scope around it becomes the current one, and
the root stays open. -/
def popScope (s : Session) : Session :=
  match (s.arena.scopeAt s.scope).owner with
  | some owner => { s with scope := owner }
  | none => s

end Session

/-- A failure keeps the session as it was at that moment, with what is open in it. -/
abbrev Routine := EStateM Failure Session

namespace Routine

variable {α β : Type}

/-- Runs a parser at the cursor and in the current scope. -/
def ofParser (p : Parser α) : Routine α := fun s =>
  match p ⟨s.tokens, s.limit, s.scope⟩ ⟨s.position, s.arena⟩ with
  | .ok a t => .ok a { s with position := t.position, arena := t.arena }
  | .error e t => .error e { s with position := t.position, arena := t.arena }

/-- What opens neither a scope nor a level is read by the parser for it. -/
instance : MonadLift Parser Routine := ⟨ofParser⟩

/-- Runs a routine inside a new scope, which is closed again whether or not the routine succeeds. -/
def inNewScope (r : Routine α) : Routine α := do
  modify Session.pushScope
  try r finally modify Session.popScope

/-- Runs a routine one level deeper, unless as many levels are open as the limit allows. -/
def nested (r : Routine α) : Routine α := do
  let s ← get
  if s.limit ≤ s.depth then Parser.tooDeep
  else
    modify fun s => { s with depth := s.depth + 1 }
    try r finally modify fun s => { s with depth := s.depth - 1 }

/-- The end that `close` finds, or an item and what `more` finds behind it. -/
def closeOr (close : Routine (Option β)) (item : Routine (List α)) (more : Routine (List α × β)) :
    Routine (List α × β) := do
  match ← close with
  | some finish => return ([], finish)
  | none =>
    let items ← item
    let (rest, finish) ← more
    return (items ++ rest, finish)

/-- Items up to the end, as `Parser.manyFrom` reads them. -/
def manyFrom (close : Routine (Option β)) (item : Routine (List α)) : Nat → Routine (List α × β)
  | 0 => closeOr close item (Parser.failHere .unexpectedEnd)
  | bound + 1 => closeOr close item (manyFrom close item bound)

def many (close : Routine (Option β)) (item : Routine (List α)) : Routine (List α × β) := do
  manyFrom close item (← Parser.remaining)

theorem bind_run (r : Routine α) (f : α → Routine β) (s : Session) :
    (r >>= f) s = match r s with
      | .ok a t => f a t
      | .error e t => .error e t := by
  change EStateM.bind r f s = _
  unfold EStateM.bind
  cases r s <;> rfl

theorem finally_run (r : Routine α) (f : Session → Session) (s : Session) :
    tryFinally r (modify f : Routine Unit) s = match r s with
      | .ok a t => .ok a (f t)
      | .error e t => .error e (f t) := by
  unfold tryFinally
  change EStateM.map _ _ s = _
  unfold EStateM.map
  dsimp only [tryFinally']
  cases r s <;> rfl

theorem inNewScope_run (r : Routine α) (s : Session) :
    inNewScope r s = match r s.pushScope with
      | .ok a t => .ok a t.popScope
      | .error e t => .error e t.popScope := finally_run r _ _

theorem nested_run (r : Routine α) (s : Session) :
    nested r s = if s.limit ≤ s.depth then ofParser Parser.tooDeep s else
      match r { s with depth := s.depth + 1 } with
      | .ok a t => .ok a { t with depth := t.depth - 1 }
      | .error e t => .error e { t with depth := t.depth - 1 } := by
  change (if s.limit ≤ s.depth then liftM Parser.tooDeep else _ : Routine α) s = _
  split
  · rfl
  · exact finally_run r _ _

end Routine

end ScriptSyntax
