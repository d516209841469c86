import ScriptSyntax.Program.Basic
import ScriptSyntax.Token.Basic

/-!
Parsers over a list of tokens. A parser moves a cursor, adds to an arena and may fail; a failure
keeps the cursor and the arena as they were at that moment. The current scope is fixed from outside,
and so are the levels of nesting still allowed: a session, which opens and closes both, runs the
routines that go with these parsers, and they come to the same (`Routine.Follows`).
-/

namespace ScriptSyntax

/-- What a parser is given: the tokens, the greatest nesting allowed and the current scope. -/
structure Context where
  tokens : TokenList
  limit : Nat
  scope : ScopeId

/-- What a parser changes: the slot of the next token, and the declarations made so far. -/
structure Progress where
  position : Nat
  arena : Arena
  deriving DecidableEq, Inhabited

abbrev Parser := ReaderT Context (EStateM Failure Progress)

namespace Parser

variable {α β : Type}

/-- The token `n` slots ahead. -/
def tokenAt (n : Nat) : Parser Token :=
  return (← read).tokens.get ((← get).position + n)

def peek (n : Nat) : Parser TokenKind := return (← tokenAt n).kind

def here : Parser Location := return (← tokenAt 0).location

def scope : Parser ScopeId := return (← read).scope

/-- Takes the next token, whatever it is. -/
def advance : Parser Token := do
  let token ← tokenAt 0
  modify fun s => { s with position := s.position + 1 }
  return token

def fail (cause : Cause) (location : Location) : Parser α := throw ⟨cause, location⟩

def failHere (cause : Cause) : Parser α := do fail cause (← here)

/-- Fails on the next token, which has no place here. -/
def unexpected : Parser α := do failHere (.unexpectedToken (← tokenAt 0).display)

def tooDeep : Parser α := do failHere (.nestingTooDeep (← read).limit)

/-- Takes the next token if it is of the given kind. -/
def accept (kind : TokenKind) : Parser Bool := do
  if (← peek 0) = kind then
    let _ ← advance
    return true
  else return false

/-- Takes a token of the given kind, and fails without taking any other. -/
def expect (kind : TokenKind) (what : String) : Parser Token := do
  if (← peek 0) = kind then advance else failHere (.expected what)

def identifier : Parser Token := expect .identifier "identifier"

def symbol (s : Symbol) : Parser Token := expect s s.text

def keyword (k : Keyword) : Parser Token := expect k k.text

/-- A bound on the tokens that can still be taken. -/
def remaining : Parser Nat := return (← read).tokens.size - (← get).position

/-- The end that `close` finds, or an item and what `more` finds behind it. -/
def closeOr (close : Parser (Option β)) (item : Parser (List α)) (more : Parser (List α × β)) :
    Parser (List α × β) := do
  match ← close with
  | some finish => return ([], finish)
  | none =>
    let items ← item
    let (rest, finish) ← more
    return (items ++ rest, finish)

/-- Items up to the end. An item takes at least one token or fails, so that a bound on the tokens
left is not used up. -/
def manyFrom (close : Parser (Option β)) (item : Parser (List α)) : Nat → Parser (List α × β)
  | 0 => closeOr close item (failHere .unexpectedEnd)
  | bound + 1 => closeOr close item (manyFrom close item bound)

def many (close : Parser (Option β)) (item : Parser (List α)) : Parser (List α × β) := do
  manyFrom close item (← remaining)

/-- A comma between members of a list; it may be left out in front of the closing parenthesis. -/
def separator : Parser Unit := do
  if (← accept Symbol.comma) then return
  else if (← peek 0) = Symbol.rightParen then return
  else failHere (.expected ", or )")

def parenClose : Parser (Option Location) := do
  let location ← here
  if (← accept Symbol.rightParen) then return some location else return none

/-- Runs a parser inside a new scope of the current one. -/
def inNewScope (p : Parser α) : Parser α := do
  let owner ← scope
  let (inner, arena) := (← get).arena.pushScope (some owner)
  modify fun s => { s with arena }
  withReader (fun c => { c with scope := inner }) p

/-- The variable that a name stands for in the current scope. -/
def resolve (name : Token) : Parser VariableId := do
  match (← get).arena.lookupVariable? (← scope) name.text with
  | some x => return x
  | none => fail (.unknownVariable name.text) name.location

/-- Declares a variable in the current scope. -/
def define (type : ValueType) (name : Token) : Parser VariableId := do
  let owner ← scope
  match (← get).arena.defineVariable owner ⟨type, name.text, owner, name.location⟩ false with
  | .ok (x, arena) =>
    modify fun s => { s with arena }
    return x
  | .error _ => fail (.variableDefined name.text) name.location

theorem pure_run (a : α) (c : Context) (s : Progress) : (pure a : Parser α) c s = .ok a s := rfl

theorem bind_run (p : Parser α) (f : α → Parser β) (c : Context) (s : Progress) :
    (p >>= f) c s = match p c s with
      | .ok a s' => f a c s'
      | .error e s' => .error e s' := by
  change EStateM.bind (p c) (fun a => f a c) s = _
  unfold EStateM.bind
  split <;> simp_all

theorem fail_run (cause : Cause) (l : Location) (c : Context) (s : Progress) :
    (fail cause l : Parser α) c s = .error ⟨cause, l⟩ s := rfl

theorem tokenAt_run (n : Nat) (c : Context) (s : Progress) :
    tokenAt n c s = .ok (c.tokens.get (s.position + n)) s := rfl

theorem peek_run (n : Nat) (c : Context) (s : Progress) :
    peek n c s = .ok (c.tokens.get (s.position + n)).kind s := rfl

theorem advance_run (c : Context) (s : Progress) :
    advance c s = .ok (c.tokens.get s.position) { s with position := s.position + 1 } := rfl

theorem accept_run (kind : TokenKind) (c : Context) (s : Progress) :
    accept kind c s =
      if (c.tokens.get s.position).kind = kind
      then .ok true { s with position := s.position + 1 } else .ok false s := by
  unfold accept
  rw [bind_run, peek_run]
  dsimp only [Nat.add_zero]
  split <;> rfl

theorem expect_run (kind : TokenKind) (what : String) (c : Context) (s : Progress) :
    expect kind what c s =
      if (c.tokens.get s.position).kind = kind
      then .ok (c.tokens.get s.position) { s with position := s.position + 1 }
      else .error ⟨.expected what, (c.tokens.get s.position).location⟩ s := by
  unfold expect
  rw [bind_run, peek_run]
  dsimp only [Nat.add_zero]
  split <;> rfl

theorem inNewScope_run (p : Parser α) (c : Context) (s : Progress) :
    inNewScope p c s =
      p { c with scope := (s.arena.pushScope (some c.scope)).1 }
        { s with arena := (s.arena.pushScope (some c.scope)).2 } := rfl

end Parser

end ScriptSyntax
