import ScriptSyntax.Grammar.Limit
import ScriptSyntax.Session.Statement
import ScriptSyntax.Token.Scan

/-!
What can be done with a session. Reading a text starts from scratch whatever went before, and hands
its arena over to the program.
-/

namespace ScriptSyntax

namespace Session

def new (limit : Nat) : Session := { limit }

/-- Gives up the arena for a new one, and the current scope for the root of that. -/
def resetScopes (s : Session) : Session := { s with arena := .fresh, scope := Arena.root }

/-- Forgets everything but the limit. -/
def clear (s : Session) : Session := { s with tokens := {}, position := 0, depth := 0 }.resetScopes

/-- Runs a routine at the cursor. What it took and declared stays, even if it fails. -/
def run {α : Type} (s : Session) (r : Routine α) : Except Failure α × Session :=
  match r s with
  | .ok result after => (.ok result, after)
  | .error failure after => (.error failure, after)

/-- Reads a construct. The limit bounds the recursion whatever the depth, since `nested` fails before
the bound is used up. -/
def read (s : Session) (c : Construct) : Except Failure Reading × Session :=
  s.run (c.routine s.limit)

/-- Reads the tokens of a text with the cursor in front of them. -/
def load (s : Session) (source : String) : Option Failure × Session :=
  let (tokens, failure) := TokenList.scan source
  (failure, { s.clear with tokens })

/-- Reads a whole text. The tokens and the cursor stay, the arena does not. -/
def parse (s : Session) (source : String) : Except Failure Program × Session :=
  match s.load source with
  | (some failure, loaded) => (.error failure, loaded)
  | (none, loaded) =>
    match loaded.run (Routine.topLevel loaded.limit) with
    | (.ok top, after) => (.ok ⟨after.arena, top, loaded.scope⟩, after.resetScopes)
    | (.error failure, after) => (.error failure, after.resetScopes)

/-- Reads a whole text, and reports a failure as a status. -/
def parseStatus (s : Session) (source : String) : (Option Program × Status) × Session :=
  match s.parse source with
  | (.ok program, after) => ((some program, {}), after)
  | (.error failure, after) => ((none, .ofFailure failure), after)

/-- The token under the cursor. -/
def current (s : Session) : Token := s.tokens.get s.position

end Session

/-- The program of a text. -/
def parse (limit : Nat) (source : String) : Except Failure Program :=
  ((Session.new limit).parse source).1

end ScriptSyntax
