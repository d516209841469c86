import ScriptSyntax.Grammar.Construct
import ScriptSyntax.Proofs.Grammar.Bounds

/-!
Relations between parsers that every step of reading keeps. Such a relation holds of all that is
built from the steps: between the parsers of a construct for one number of levels, and for two if it
lets a parser that finds the nesting too deep stand for any other.
-/

namespace ScriptSyntax

/-- The nesting was found too deep. -/
def Cause.isNesting : Cause → Bool
  | nestingTooDeep _ => true
  | _ => false

namespace Parser

variable {α β : Type}

/-- The part of a declaration behind the list of parameters. -/
def declared (parameters : List (ValueType × Token)) (signature : Signature) (name start : Token)
    (body : Parser Block) : Parser FunctionId := do
  let owner ← scope
  inNewScope do
    defineAll parameters
    let f ← defineFunction owner signature name start
    let block ← body
    modify fun s =>
      { s with arena := s.arena.setBody f block ⟨start.location, block.span.finish⟩ }
    return f

/-- A native body or a block. -/
def functionBody (signature : Signature) (block : Parser Block) : Parser Block := do
  if (← peek 0) = Keyword.nativeKw then nativeBody signature else block

/-- The part of a text behind its last statement: the statements become a function. -/
def finished (f : Function) : Parser FunctionId := do
  let (f, arena) := (← get).arena.addFunction f
  modify fun s => { s with arena }
  return f

theorem functionDeclaration_eq (block : Parser Block) :
    functionDeclaration block = (do
      let start ← keyword .functionKw
      let returns ← typeOf (← advance) true
      let name ← identifier
      let _ ← symbol .leftParen
      let (parameters, _) ← many parenClose do return [← parameter]
      let signature : Signature :=
        ⟨returns, name.text, parameters.map fun (type, name) => ⟨type, name.text⟩⟩
      declared parameters signature name start (functionBody signature block)) := by
  have hbody : ∀ (signature : Signature) (f : Block → Parser FunctionId),
      functionBody signature block >>= f = peek 0 >>= fun kind =>
        if kind = Keyword.nativeKw then nativeBody signature >>= f else block >>= f := by
    intro signature f
    unfold functionBody
    rw [bind_assoc]
    congr 1
    funext k
    split <;> rfl
  unfold declared
  simp only [hbody]
  rfl

theorem topLevel_eq (limit : Nat) :
    topLevel limit = (do
      let root ← scope
      let start ← here
      let (body, finish) ←
        many endClose (statementItem (statement (block limit) (expression limit 1)))
      let span : Span := ⟨start, finish⟩
      finished ⟨⟨.void, Program.topName, []⟩, root, root, ⟨root, body, span⟩, span⟩) := rfl

/-- A relation that the steps keep, and putting parsers one behind the other. -/
structure Congruence (R : (α : Type) → Parser α → Parser α → Prop) : Prop where
  pure {α : Type} (a : α) : R α (pure a) (pure a)
  bind {α β : Type} {p q : Parser α} {f g : α → Parser β} : R α p q → (∀ a, R β (f a) (g a)) →
    R β (p >>= f) (q >>= g)
  fail {α : Type} {cause : Cause} (l : Location) : cause.isNesting = false →
    R α (fail cause l) (fail cause l)
  tooDeep {α : Type} : R α tooDeep tooDeep
  get : R Progress get get
  scope : R ScopeId scope scope
  bounded {α : Type} {f g : Nat → Parser α} : Settles f → (∀ bound, R α (f bound) (g bound)) →
    R α (remaining >>= f) (remaining >>= g)
  tokenAt (n : Nat) : n ≤ 1 → R Token (tokenAt n) (tokenAt n)
  advance : R Token advance advance
  define (type : ValueType) (name : Token) : R VariableId (define type name) (define type name)
  inNewScope {α : Type} {p q : Parser α} : R α p q → R α (inNewScope p) (inNewScope q)
  declared {p q : Parser Block} (parameters : List (ValueType × Token)) (signature : Signature)
    (name start : Token) : R Block p q → R FunctionId (declared parameters signature name start p)
      (declared parameters signature name start q)
  finished (f : Function) : R FunctionId (finished f) (finished f)

namespace Congruence

variable {R : (α : Type) → Parser α → Parser α → Prop} (hR : Congruence R)
include hR

omit hR in
theorem ite {P : Prop} [Decidable P] {p p' q q' : Parser α} (h : R α p q) (h' : R α p' q') :
    R α (if P then p else p') (if P then q else q') := by
  split
  · exact h
  · exact h'

/-- No parser looks further ahead than behind the next token. -/
theorem peek {n : Nat} (h : n ≤ 1) : R TokenKind (peek n) (peek n) :=
  hR.bind (hR.tokenAt n h) fun _ => hR.pure _

theorem here : R Location here here := hR.bind (hR.tokenAt 0 (by decide)) fun _ => hR.pure _

theorem failHere {cause : Cause} (h : cause.isNesting = false) :
    R α (failHere cause) (failHere cause) := hR.bind hR.here fun l => hR.fail l h

theorem unexpected : R α unexpected unexpected :=
  hR.bind (hR.tokenAt 0 (by decide)) fun _ => hR.failHere rfl

theorem accept (kind : TokenKind) : R Bool (accept kind) (accept kind) :=
  hR.bind (hR.peek (Nat.zero_le 1)) fun _ =>
    Congruence.ite (hR.bind hR.advance fun _ => hR.pure _) (hR.pure _)

theorem expect (kind : TokenKind) (what : String) :
    R Token (expect kind what) (expect kind what) :=
  hR.bind (hR.peek (Nat.zero_le 1)) fun _ => Congruence.ite hR.advance (hR.failHere rfl)

theorem identifier : R Token identifier identifier := hR.expect _ _

theorem symbol (s : Symbol) : R Token (symbol s) (symbol s) := hR.expect _ _

theorem keyword (k : Keyword) : R Token (keyword k) (keyword k) := hR.expect _ _

theorem resolve (name : Token) : R VariableId (resolve name) (resolve name) := by
  apply hR.bind hR.get
  intro s
  apply hR.bind hR.scope
  intro t
  split
  · exact hR.pure _
  · exact hR.fail _ rfl

theorem separator : R Unit separator separator := by
  apply hR.bind (hR.accept _)
  intro taken
  apply Congruence.ite (hR.pure _)
  apply hR.bind (hR.peek (Nat.zero_le 1))
  intro kind
  exact Congruence.ite (hR.pure _) (hR.failHere rfl)

theorem parenClose : R (Option Location) parenClose parenClose := by
  apply hR.bind hR.here
  intro location
  apply hR.bind (hR.accept _)
  intro taken
  exact Congruence.ite (hR.pure _) (hR.pure _)

section Lists

variable {close close' : Parser (Option β)} {item item' : Parser (List α)}

theorem many (hsteady : Steady close) (hconsumes : Consumes item) (hclose : R _ close close')
    (hitem : R _ item item') : R (List α × β) (many close item) (many close' item') := by
  have hor : ∀ {more more' : Parser (List α × β)}, R _ more more' →
      R _ (closeOr close item more) (closeOr close' item' more') := by
    intro more more' hmore
    apply hR.bind hclose
    rintro (_ | finish)
    · apply hR.bind hitem
      intro items
      exact hR.bind hmore fun _ => hR.pure _
    · exact hR.pure _
  apply hR.bounded (settles_manyFrom hsteady hconsumes)
  intro bound
  induction bound with
  | zero => exact hor (hR.failHere rfl)
  | succ bound ih => exact hor ih

end Lists

section Expressions

variable {p p' : Parser Node}

theorem intLiteral : R Node intLiteral intLiteral := by
  apply hR.bind (hR.expect _ _)
  intro token
  split
  · exact hR.pure _
  · exact hR.fail _ rfl

theorem doubleLiteral : R Node doubleLiteral doubleLiteral := by
  apply hR.bind (hR.expect _ _)
  intro token
  split
  · exact hR.pure _
  · exact hR.fail _ rfl

theorem stringLiteral : R Node stringLiteral stringLiteral :=
  hR.bind hR.advance fun _ => hR.pure _

theorem load : R Node load load :=
  hR.bind hR.identifier fun name => hR.bind (hR.resolve name) fun _ => hR.pure _

theorem arguments (hp : Consumes p) (h : R _ p p') :
    R (List Node × Location) (arguments p) (arguments p') :=
  hR.many steady_parenClose (hp.bind fun _ => forward_separator.bind fun _ => forward_pure)
    hR.parenClose (hR.bind h fun _ => hR.bind hR.separator fun _ => hR.pure _)

theorem call (hp : Consumes p) (h : R _ p p') : R Node (call p) (call p') := by
  apply hR.bind hR.identifier
  intro name
  apply hR.bind (hR.symbol _)
  intro _
  apply hR.bind hR.get
  intro s
  apply hR.bind hR.scope
  intro t
  exact hR.bind (hR.arguments hp h) fun _ => hR.pure _

theorem applied (h : R _ p p') : R Node (applied p) (applied p') := by
  apply hR.bind hR.advance
  intro operator
  apply hR.bind h
  intro inner
  unfold Node.ofUnary
  cases UnaryOperator.ofKind? operator.kind with
  | some o => exact hR.pure _
  | none => exact hR.fail _ rfl

theorem parenthesised (h : R _ p p') : R Node (parenthesised p) (parenthesised p') :=
  hR.bind hR.advance fun _ => hR.bind h fun _ => hR.bind (hR.symbol _) fun _ => hR.pure _

theorem operand {signed signed' : Parser Node} (hp : Consumes p) (hsigned : R _ signed signed')
    (h : R _ p p') : R Node (operand signed p) (operand signed' p') := by
  apply hR.bind (hR.peek (Nat.zero_le 1))
  intro kind
  split
  · exact hsigned
  · exact hsigned
  · exact hR.parenthesised h
  · exact hR.bind (hR.peek (Nat.le_refl 1)) fun _ => Congruence.ite (hR.call hp h) hR.load
  · exact hR.intLiteral
  · exact hR.doubleLiteral
  · exact hR.stringLiteral
  · exact hR.failHere rfl
  · exact hR.unexpected

theorem combined (operator : Token) (left right : Node) :
    R Node (combined operator left right) (combined operator left right) := by
  unfold Parser.combined Node.ofBinary
  cases BinaryOperator.ofKind? operator.kind with
  | some o => exact hR.pure _
  | none => exact hR.fail _ rfl

theorem climb {right right' : Nat → Parser Node} (h : ∀ least, R _ (right least) (right' least))
    (least bound : Nat) (left : Node) :
    R Node (climb right least bound left) (climb right' least bound left) := by
  induction bound generalizing left with
  | zero => exact hR.pure _
  | succ bound ih =>
    apply hR.bind (hR.peek (Nat.zero_le 1))
    intro kind
    apply Congruence.ite _ (hR.pure _)
    apply hR.bind hR.advance
    intro operator
    apply hR.bind (h _)
    intro other
    exact hR.bind (hR.combined operator left other) ih

theorem chain {right right' : Nat → Parser Node} (hr : ∀ least, Forward (right least))
    (h : R _ p p') (hright : ∀ least, R _ (right least) (right' least)) (least : Nat) :
    R Node (chain p right least) (chain p' right' least) :=
  hR.bind h fun left => hR.bounded (settles_climb hr least left) fun bound =>
    hR.climb hright least bound left

end Expressions

section Statements

variable {p p' : Parser Node} {q q' : Parser Block} {r r' : Parser (Option Node)}

theorem typeOf (token : Token) (voidAllowed : Bool) :
    R ValueType (typeOf token voidAllowed) (typeOf token voidAllowed) := by
  unfold Parser.typeOf
  split
  · exact Congruence.ite (hR.fail _ rfl) (hR.pure _)
  · exact hR.fail _ rfl

theorem variableDeclaration (h : R _ p p') :
    R Node (variableDeclaration p) (variableDeclaration p') := by
  apply hR.bind hR.advance
  intro start
  apply hR.bind (hR.typeOf start false)
  intro type
  apply hR.bind hR.identifier
  intro name
  apply hR.bind (hR.symbol _)
  intro _
  apply hR.bind h
  intro value
  exact hR.bind (hR.define type name) fun _ => hR.pure _

theorem assignment (h : R _ p p') : R Node (assignment p) (assignment p') := by
  apply hR.bind hR.identifier
  intro name
  apply hR.bind (hR.resolve name)
  intro target
  apply hR.bind hR.advance
  intro operator
  apply hR.bind h
  intro value
  unfold Node.ofAssign
  cases AssignOperator.ofKind? operator.kind with
  | some o => exact hR.pure _
  | none => exact hR.fail _ rfl

theorem printed (hp : Consumes p) (h : R _ p p') : R Node (printed p) (printed p') :=
  hR.bind (hR.keyword _) fun _ => hR.bind (hR.symbol _) fun _ =>
    hR.bind (hR.arguments hp h) fun _ => hR.pure _

theorem returned (h : R _ p p') : R Node (returned p) (returned p') := by
  apply hR.bind (hR.keyword _)
  intro start
  apply hR.bind (hR.peek (Nat.zero_le 1))
  intro kind
  exact Congruence.ite (hR.pure _) (hR.bind h fun _ => hR.pure _)

theorem condition (h : R _ p p') : R Node (condition p) (condition p') :=
  hR.bind (hR.symbol _) fun _ => hR.bind h fun _ => hR.bind (hR.symbol _) fun _ => hR.pure _

theorem branch (hq : R _ q q') (h : R _ p p') : R Node (branch q p) (branch q' p') := by
  apply hR.bind (hR.keyword _)
  intro start
  apply hR.bind (hR.condition h)
  intro test
  apply hR.bind hq
  intro thenBody
  apply hR.bind (hR.accept _)
  intro taken
  exact Congruence.ite (hR.bind hq fun _ => hR.pure _) (hR.pure _)

theorem whileLoop (hq : R _ q q') (h : R _ p p') : R Node (whileLoop q p) (whileLoop q' p') :=
  hR.bind (hR.keyword _) fun _ => hR.bind (hR.condition h) fun _ => hR.bind hq fun _ => hR.pure _

theorem forLoop (hq : R _ q q') (h : R _ p p') : R Node (forLoop q p) (forLoop q' p') := by
  apply hR.bind (hR.keyword _)
  intro start
  apply hR.bind (hR.symbol _)
  intro _
  apply hR.bind hR.identifier
  intro name
  apply hR.bind (hR.resolve name)
  intro target
  apply hR.bind (hR.keyword _)
  intro _
  apply hR.bind h
  intro range
  apply hR.bind (hR.symbol _)
  intro _
  exact hR.bind hq fun _ => hR.pure _

theorem parameter : R (ValueType × Token) parameter parameter := by
  apply hR.bind hR.advance
  intro token
  apply hR.bind (hR.typeOf token false)
  intro type
  apply hR.bind hR.identifier
  intro name
  exact hR.bind hR.separator fun _ => hR.pure _

theorem nativeBody (signature : Signature) :
    R Block (nativeBody signature) (nativeBody signature) := by
  apply hR.bind (hR.keyword _)
  intro start
  apply hR.bind (hR.expect _ _)
  intro target
  apply hR.bind (hR.symbol _)
  intro finish
  exact hR.inNewScope (hR.bind hR.scope fun _ => hR.pure _)

theorem functionBody (signature : Signature) (hq : R _ q q') :
    R Block (functionBody signature q) (functionBody signature q') :=
  hR.bind (hR.peek (Nat.zero_le 1)) fun _ => Congruence.ite (hR.nativeBody signature) hq

theorem functionDeclaration (hq : R _ q q') :
    R FunctionId (functionDeclaration q) (functionDeclaration q') := by
  rw [functionDeclaration_eq, functionDeclaration_eq]
  apply hR.bind (hR.keyword _)
  intro start
  apply hR.bind hR.advance
  intro token
  apply hR.bind (hR.typeOf token true)
  intro returns
  apply hR.bind hR.identifier
  intro name
  apply hR.bind (hR.symbol _)
  intro _
  apply hR.bind (hR.many steady_parenClose (consumes_parameter.bind fun _ => forward_pure)
    hR.parenClose (hR.bind hR.parameter fun _ => hR.pure _))
  rintro ⟨parameters, finish⟩
  exact hR.declared parameters _ name start (hR.functionBody _ hq)

theorem terminated (h : R _ p p') : R (Option Node) (terminated p) (terminated p') :=
  hR.bind h fun _ => hR.bind (hR.symbol _) fun _ => hR.pure _

theorem statement (hp : Consumes p) (hq : R _ q q') (h : R _ p p') :
    R (Option Node) (statement q p) (statement q' p') := by
  apply hR.bind (hR.peek (Nat.zero_le 1))
  intro kind
  split
  · exact hR.bind (hR.functionDeclaration hq) fun _ => hR.pure _
  · exact hR.bind hq fun _ => hR.pure _
  · exact hR.bind (hR.branch hq h) fun _ => hR.pure _
  · exact hR.bind (hR.whileLoop hq h) fun _ => hR.pure _
  · exact hR.bind (hR.forLoop hq h) fun _ => hR.pure _
  · exact hR.terminated (hR.variableDeclaration h)
  · exact hR.terminated (hR.variableDeclaration h)
  · exact hR.terminated (hR.variableDeclaration h)
  · exact hR.terminated (hR.variableDeclaration h)
  · exact hR.terminated (hR.printed hp h)
  · exact hR.terminated (hR.returned h)
  · exact hR.unexpected
  · exact hR.bind (hR.peek (Nat.le_refl 1)) fun _ =>
      Congruence.ite (hR.terminated (hR.assignment h)) (hR.terminated h)
  · exact hR.terminated h

theorem statementItem (h : R _ r r') : R (List Node) (statementItem r) (statementItem r') :=
  hR.bind (hR.accept _) fun _ => Congruence.ite (hR.pure _) (hR.bind h fun _ => hR.pure _)

theorem braceClose : R (Option Location) braceClose braceClose := by
  apply hR.bind (hR.peek (Nat.zero_le 1))
  intro kind
  split
  · exact hR.bind hR.advance fun _ => hR.pure _
  · exact hR.failHere rfl
  · exact hR.pure _

theorem endClose : R (Option Location) endClose endClose :=
  hR.bind (hR.peek (Nat.zero_le 1)) fun _ =>
    Congruence.ite (hR.bind hR.here fun _ => hR.pure _) (hR.pure _)

theorem braced (hr : Consumes r) (h : R _ r r') : R Block (braced r) (braced r') := by
  apply hR.bind (hR.symbol _)
  intro start
  apply hR.inNewScope
  apply hR.bind (hR.many steady_braceClose hr.statementItem hR.braceClose (hR.statementItem h))
  intro items
  exact hR.bind hR.scope fun _ => hR.pure _

end Statements

section Levels

/-- What `R` has to allow so that parsers with `m` levels may stand for those with `n`. -/
def Covers (R : (α : Type) → Parser α → Parser α → Prop) (m n : Nat) : Prop :=
  m = n ∨ m ≤ n ∧ ∀ (α : Type) (p : Parser α), R α Parser.tooDeep p

variable {m n : Nat}

omit hR in
theorem Covers.succ (h : Covers R (m + 1) n) : ∃ k, n = k + 1 ∧ Covers R m k := by
  rcases h with rfl | ⟨hle, hdeep⟩
  · exact ⟨m, rfl, .inl rfl⟩
  · exact ⟨n - 1, by omega, .inr ⟨by omega, hdeep⟩⟩

/-- By induction on the levels that are left to the first. -/
theorem levels (h : Covers R m n) :
    (∀ least, R Node (expression m least) (expression n least)) ∧ R Node (unary m) (unary n) := by
  induction m generalizing n with
  | zero =>
    rcases h with rfl | ⟨-, hdeep⟩
    · refine ⟨fun least => ?_, ?_⟩
      · rw [expression]
        exact hR.tooDeep
      · rw [unary]
        exact hR.operand consumes_tooDeep hR.tooDeep hR.tooDeep
    · refine ⟨fun least => ?_, ?_⟩
      · rw [expression]
        exact hdeep _ _
      · rw [unary]
        cases n with
        | zero => rw [unary]; exact hR.operand consumes_tooDeep (hdeep _ _) (hdeep _ _)
        | succ n => rw [unary]; exact hR.operand consumes_tooDeep (hdeep _ _) (hdeep _ _)
  | succ m ih =>
    obtain ⟨n, rfl, hn⟩ := h.succ
    have hexpression : ∀ least, R Node (expression (m + 1) least) (expression (n + 1) least) := by
      intro least
      rw [expression, expression]
      exact hR.chain (fun least => (consumes_expression m least).forward) (ih hn).2 (ih hn).1 least
    refine ⟨hexpression, ?_⟩
    rw [unary_succ, unary_succ]
    exact hR.operand (consumes_expression (m + 1) 1) (hR.applied (ih hn).2) (hexpression 1)

theorem expression (h : Covers R m n) (least : Nat) :
    R Node (expression m least) (expression n least) := (hR.levels h).1 least

theorem unary (h : Covers R m n) : R Node (unary m) (unary n) := (hR.levels h).2

theorem block (h : Covers R m n) : R Block (block m) (block n) := by
  induction m generalizing n with
  | zero =>
    rw [Parser.block]
    rcases h with rfl | ⟨-, hdeep⟩
    · exact hR.tooDeep
    · exact hdeep _ _
  | succ m ih =>
    obtain ⟨n, rfl, hn⟩ := h.succ
    rw [Parser.block, Parser.block]
    exact hR.braced (consumes_statement m)
      (hR.statement (consumes_expression m 1) (ih hn) (hR.expression hn 1))

theorem statements {close : Parser (Option Location)} (hsteady : Steady close)
    (hclose : R _ close close) (h : Covers R m n) :
    R _ (Parser.many close (Parser.statementItem
        (Parser.statement (Parser.block m) (Parser.expression m 1))))
      (Parser.many close (Parser.statementItem
        (Parser.statement (Parser.block n) (Parser.expression n 1)))) :=
  hR.many hsteady (consumes_statement m).statementItem hclose
    (hR.statementItem (hR.statement (consumes_expression m 1) (hR.block h) (hR.expression h 1)))

theorem topLevel (h : Covers R m n) : R FunctionId (topLevel m) (topLevel n) := by
  rw [topLevel_eq, topLevel_eq]
  apply hR.bind hR.scope
  intro root
  apply hR.bind hR.here
  intro start
  apply hR.bind (hR.statements steady_endClose hR.endClose h)
  rintro ⟨body, finish⟩
  exact hR.finished _

/-- Every construct with any number of levels. -/
theorem within (levels : Nat) (c : Construct) :
    R Reading (c.within levels) (c.within levels) := by
  have hconsumes := consumes_expression levels 1
  have hexpression : ∀ least, R Node (Parser.expression levels least)
      (Parser.expression levels least) := hR.expression (.inl rfl)
  have hblock : R Block (Parser.block levels) (Parser.block levels) := hR.block (.inl rfl)
  have hnode : ∀ {p : Parser Node}, R Node p p →
      R Reading (do return .node (← p)) (do return .node (← p)) :=
    fun h => hR.bind h fun _ => hR.pure _
  cases c with
  | topLevel => exact hR.bind (hR.topLevel (.inl rfl)) fun _ => hR.pure _
  | statement =>
    apply hR.bind (hR.statement hconsumes hblock (hexpression 1))
    rintro (_ | node)
    · exact hR.pure _
    · exact hR.pure _
  | block => exact hR.bind hblock fun _ => hR.pure _
  | functionDeclaration => exact hR.bind (hR.functionDeclaration hblock) fun _ => hR.pure _
  | variableDeclaration => exact hnode (hR.variableDeclaration (hexpression 1))
  | assignment => exact hnode (hR.assignment (hexpression 1))
  | branch => exact hnode (hR.branch hblock (hexpression 1))
  | whileLoop => exact hnode (hR.whileLoop hblock (hexpression 1))
  | forLoop => exact hnode (hR.forLoop hblock (hexpression 1))
  | returned => exact hnode (hR.returned (hexpression 1))
  | printed => exact hnode (hR.printed hconsumes (hexpression 1))
  | expression => exact hnode (hexpression 1)
  | operation least => exact hnode (hexpression least)
  | unary => exact hnode (hR.unary (.inl rfl))
  | call => exact hnode (hR.call hconsumes (hexpression 1))
  | load => exact hnode hR.load
  | intLiteral => exact hnode hR.intLiteral
  | doubleLiteral => exact hnode hR.doubleLiteral
  | arguments => exact hR.bind (hR.arguments hconsumes (hexpression 1)) fun _ => hR.pure _

end Levels

end Congruence

end Parser

end ScriptSyntax
