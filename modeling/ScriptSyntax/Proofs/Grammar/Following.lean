import ScriptSyntax.Proofs.Grammar.Enclosed
import ScriptSyntax.Session

/-!
What the routines of a session come to. A routine opens scopes and levels in the session and closes
them again; the parser for the same construct is given both from outside and cannot move them. The
two read alike, so that a routine restores what it opens, however it ends.
-/

namespace ScriptSyntax

namespace Arena

/-- The scopes of `a` are inside the same ones in `b`. -/
structure SameOwners (a b : Arena) : Prop where
  scopeCount : a.scopeCount ≤ b.scopeCount
  owner : ∀ {t : ScopeId}, t.index < a.scopeCount → (b.scopeAt t).owner = (a.scopeAt t).owner

variable {a b c : Arena}

theorem SameOwners.refl (a : Arena) : a.SameOwners a := ⟨Nat.le_refl _, fun _ => rfl⟩

theorem SameOwners.trans (h : a.SameOwners b) (h' : b.SameOwners c) : a.SameOwners c where
  scopeCount := Nat.le_trans h.scopeCount h'.scopeCount
  owner ht := (h'.owner (Nat.lt_of_lt_of_le ht h.scopeCount)).trans (h.owner ht)

theorem Enclosed.sameOwners {o : Option ScopeId} (h : Enclosed o a b) : a.SameOwners b :=
  ⟨h.scopeCount, h.owner⟩

end Arena

open Arena

namespace Parser

variable {α β : Type}

/-- However `p` ends, no scope has come to be inside another one than before. -/
def KeepsOwners (p : Parser α) : Prop :=
  ∀ c s, c.scope.index < s.arena.scopeCount →
    Ends p c s (fun _ t => s.arena.SameOwners t.arena) fun _ t => s.arena.SameOwners t.arena

theorem Keeps.keepsOwners {p : Parser α} (h : Keeps p) : KeepsOwners p := fun c s hc =>
  (h c s hc).imp (fun _ _ ht => ht.sameOwners) fun _ _ ht => ht.sameOwners

theorem KeepsOwners.bind {p : Parser α} {f : α → Parser β} (h : KeepsOwners p)
    (hf : ∀ a, KeepsOwners (f a)) : KeepsOwners (p >>= f) := by
  intro c s hc
  rw [ends_bind]
  refine (h c s hc).imp ?_ fun _ _ he => he
  intro a t ht
  refine (hf a c t (Nat.lt_of_lt_of_le hc ht.scopeCount)).imp ?_ ?_
  · intro b u hu
    exact ht.trans hu
  · intro e u hu
    exact ht.trans hu

/-- What stands in the scope of the parameters. `Keeps` does not hold of it, since the function is
declared in the scope around that. -/
theorem keepsOwners_declared {p : Parser Block} (parameters : List (ValueType × Token))
    (owner : ScopeId) (signature : Signature) (name start : Token) (h : KeepsOwners p) :
    KeepsOwners do
      defineAll parameters
      let f ← defineFunction owner signature name start
      let block ← p
      modify fun s =>
        { s with arena := s.arena.setBody f block ⟨start.location, block.span.finish⟩ }
      return f := by
  apply (keeps_defineAll parameters).keepsOwners.bind
  intro _
  have hdefine : KeepsOwners (defineFunction owner signature name start) := by
    intro c s _
    refine (ends_defineFunction owner signature name start).imp ?_ ?_
    · exact fun f t ht => ht.1.sameOwners
    · intro e t ht
      rw [ht]
      exact .refl _
  apply hdefine.bind
  intro f
  apply h.bind
  intro block _ _ _
  exact ⟨Nat.le_refl _, fun _ => rfl⟩

end Parser

/-- The levels that may still be opened. -/
def Session.levels (s : Session) : Nat := s.limit - s.depth

namespace Routine

open ScriptSyntax.Parser

variable {α β : Type} {levels : Nat}

/-- Where so many levels may still be opened, `r` does at the cursor and in the current scope what
`p` does, however that ends, and leaves the rest of the session as it was. -/
def Follows (levels : Nat) (r : Routine α) (p : Parser α) : Prop :=
  ∀ s : Session, s.levels = levels → r s = ofParser p s

namespace Follows

theorem lift (p : Parser α) : Follows levels (liftM p) p := fun _ _ => rfl

theorem pure (a : α) : Follows levels (Pure.pure a) (Pure.pure a) := fun _ _ => rfl

theorem bind {r : Routine α} {p : Parser α} {f : α → Routine β} {g : α → Parser β}
    (h : Follows levels r p) (hf : ∀ a, Follows levels (f a) (g a)) :
    Follows levels (r >>= f) (p >>= g) := by
  intro s hs
  rw [Routine.bind_run, h s hs, ofParser, ofParser, Parser.bind_run]
  cases p ⟨s.tokens, s.limit, s.scope⟩ ⟨s.position, s.arena⟩ with
  | ok a t => exact hf a { s with position := t.position, arena := t.arena } hs
  | error e t => rfl

theorem ite {P : Prop} [Decidable P] {r r' : Routine α} {p p' : Parser α}
    (h : Follows levels r p) (h' : Follows levels r' p') :
    Follows levels (if P then r else r') (if P then p else p') := by
  split
  · exact h
  · exact h'

/-- No level is left, so that `r` is not run. -/
theorem tooDeep (r : Routine α) : Follows 0 (nested r) tooDeep := by
  intro s hs
  rw [nested_run, if_pos (Nat.le_of_sub_eq_zero hs)]

/-- The level that is opened is closed again, on success and on failure. -/
theorem nested {r : Routine α} {p : Parser α} (h : Follows levels r p) :
    Follows (levels + 1) (nested r) p := by
  intro s hs
  have hdepth : ¬s.limit ≤ s.depth := fun hle => by
    rw [Session.levels, Nat.sub_eq_zero_of_le hle] at hs
    contradiction
  have hinner : ({ s with depth := s.depth + 1 } : Session).levels = levels :=
    congrArg Nat.pred hs
  rw [nested_run, if_neg hdepth, h _ hinner]
  unfold ofParser
  cases p ⟨s.tokens, s.limit, s.scope⟩ ⟨s.position, s.arena⟩ <;> rfl

/-- The scope that is opened is closed again, on success and on failure: whatever was declared in
the meantime, it is still inside the scope that was the current one. -/
theorem inNewScope {r : Routine α} {p : Parser α} (h : Follows levels r p) (hp : KeepsOwners p) :
    Follows levels (inNewScope r) (Parser.inNewScope p) := by
  intro s hs
  have hlt : s.pushScope.scope.index < s.pushScope.arena.scopeCount := lt_pushScope ..
  have howner : (s.pushScope.arena.scopeAt s.pushScope.scope).owner = some s.scope :=
    owner_pushScope ..
  -- Closing climbs from where the body has got to, which is the new scope again, to the owner that
  -- the new scope has by then.
  have hpop : ∀ t : Progress, s.pushScope.arena.SameOwners t.arena →
      { s.pushScope with position := t.position, arena := t.arena }.popScope =
        { s with position := t.position, arena := t.arena } := by
    intro t ht
    unfold Session.popScope
    dsimp only
    rw [ht.owner hlt, howner]
    rfl
  have hparser : Parser.inNewScope p ⟨s.tokens, s.limit, s.scope⟩ ⟨s.position, s.arena⟩ =
      p ⟨s.pushScope.tokens, s.pushScope.limit, s.pushScope.scope⟩
        ⟨s.pushScope.position, s.pushScope.arena⟩ := rfl
  rw [inNewScope_run, h s.pushScope hs, ofParser, ofParser, hparser]
  rcases (hp ⟨_, s.pushScope.limit, _⟩ ⟨s.pushScope.position, _⟩ hlt).result with
    ⟨a, t, hrun, ht⟩ | ⟨e, t, hrun, ht⟩
  · rw [hrun]
    exact congrArg (EStateM.Result.ok a) (hpop t ht)
  · rw [hrun]
    exact congrArg (EStateM.Result.error e) (hpop t ht)

theorem many {close : Routine (Option β)} {close' : Parser (Option β)} {item : Routine (List α)}
    {item' : Parser (List α)} (hclose : Follows levels close close')
    (hitem : Follows levels item item') :
    Follows levels (Routine.many close item) (Parser.many close' item') := by
  have hor : ∀ {more : Routine (List α × β)} {more' : Parser (List α × β)},
      Follows levels more more' →
        Follows levels (closeOr close item more) (Parser.closeOr close' item' more') := by
    intro more more' hmore
    apply hclose.bind
    rintro (_ | finish)
    · apply hitem.bind
      intro items
      exact hmore.bind fun _ => .pure _
    · exact .pure _
  apply Follows.bind (.lift remaining)
  intro bound
  induction bound with
  | zero => exact hor (.lift _)
  | succ bound ih => exact hor ih

section Expressions

variable {r : Routine Node} {p : Parser Node}

theorem arguments (h : Follows levels r p) :
    Follows levels (Routine.arguments r) (Parser.arguments p) :=
  many (.lift parenClose) (h.bind fun _ => (Follows.lift separator).bind fun _ => .pure _)

theorem call (h : Follows levels r p) : Follows levels (Routine.call r) (Parser.call p) := by
  apply Follows.bind (.lift identifier)
  intro name
  apply Follows.bind (.lift (symbol _))
  intro _ s hs
  exact Follows.bind h.arguments (fun _ => .pure _) s hs

theorem applied (h : Follows levels r p) :
    Follows levels (Routine.applied r) (Parser.applied p) := by
  apply Follows.bind (.lift advance)
  intro operator
  apply h.bind
  intro inner
  cases Node.ofUnary operator.kind inner ⟨operator.location, inner.span.finish⟩ with
  | ok node => exact .pure _
  | error cause => exact .lift _

theorem parenthesised (h : Follows levels r p) :
    Follows levels (Routine.parenthesised r) (Parser.parenthesised p) :=
  (Follows.lift advance).bind fun _ => h.bind fun _ =>
    (Follows.lift (symbol _)).bind fun _ => .pure _

theorem operand {signed : Routine Node} {signed' : Parser Node}
    (hsigned : Follows levels signed signed') (h : Follows levels r p) :
    Follows levels (Routine.operand signed r) (Parser.operand signed' p) := by
  apply Follows.bind (.lift (peek 0))
  intro kind
  cases kind with
  | symbol s =>
    cases s with
    | not => exact hsigned
    | minus => exact hsigned
    | leftParen => exact h.parenthesised
    | _ => exact .lift _
  | identifier => exact (Follows.lift (peek 1)).bind fun _ => ite h.call (.lift load)
  | _ => exact .lift _

theorem climb {right : Nat → Routine Node} {right' : Nat → Parser Node}
    (h : ∀ least, Follows levels (right least) (right' least)) (least bound : Nat) (left : Node) :
    Follows levels (Routine.climb right least bound left)
      (Parser.climb right' least bound left) := by
  induction bound generalizing left with
  | zero => exact .pure _
  | succ bound ih =>
    apply Follows.bind (.lift (peek 0))
    intro kind
    apply ite _ (.pure _)
    apply Follows.bind (.lift advance)
    intro operator
    apply (h _).bind
    intro other
    exact Follows.bind (.lift (combined operator left other)) ih

theorem chain {right : Nat → Routine Node} {right' : Nat → Parser Node} (h : Follows levels r p)
    (hright : ∀ least, Follows levels (right least) (right' least)) (least : Nat) :
    Follows levels (Routine.chain r right least) (Parser.chain p right' least) :=
  h.bind fun left => (Follows.lift remaining).bind fun bound => climb hright least bound left

/-- The bound is that of the routine alone: the parser counts the levels that are left. -/
theorem expressions {bound : Nat} (h : levels ≤ bound) :
    (∀ least, Follows levels (Routine.expression bound least) (Parser.expression levels least)) ∧
      Follows levels (Routine.unary bound) (Parser.unary levels) := by
  induction bound generalizing levels with
  | zero =>
    obtain rfl := Nat.le_zero.1 h
    refine ⟨fun least => ?_, ?_⟩
    · rw [Routine.expression, Parser.expression]
      exact .lift _
    · rw [Routine.unary, Parser.unary]
      exact operand (.lift _) (.lift _)
  | succ bound ih =>
    have hexpression : ∀ least,
        Follows levels (Routine.expression (bound + 1) least) (Parser.expression levels least) := by
      intro least
      cases levels with
      | zero =>
        -- The routine has its bound left, but the depth has reached the limit.
        rw [Routine.expression, Parser.expression]
        exact tooDeep _
      | succ levels =>
        obtain ⟨hright, hoperand⟩ := ih (Nat.le_of_succ_le_succ h)
        rw [Routine.expression, Parser.expression]
        exact (hoperand.chain hright least).nested
    refine ⟨hexpression, ?_⟩
    rw [Routine.unary_succ]
    cases levels with
    | zero =>
      rw [Parser.unary]
      exact operand (tooDeep _) (hexpression 1)
    | succ levels =>
      rw [Parser.unary_succ]
      exact operand (ih (Nat.le_of_succ_le_succ h)).2.applied.nested (hexpression 1)

end Expressions

section Statements

variable {r : Routine Node} {p : Parser Node} {b : Routine Block} {q : Parser Block}

theorem variableDeclaration (h : Follows levels r p) :
    Follows levels (Routine.variableDeclaration r) (Parser.variableDeclaration p) := by
  apply Follows.bind (.lift advance)
  intro start
  apply Follows.bind (.lift (typeOf start false))
  intro type
  apply Follows.bind (.lift identifier)
  intro name
  apply Follows.bind (.lift (symbol _))
  intro _
  apply h.bind
  intro value
  exact (Follows.lift (define type name)).bind fun _ => .pure _

theorem assignment (h : Follows levels r p) :
    Follows levels (Routine.assignment r) (Parser.assignment p) := by
  apply Follows.bind (.lift identifier)
  intro name
  apply Follows.bind (.lift (resolve name))
  intro target
  apply Follows.bind (.lift advance)
  intro operator
  apply h.bind
  intro value
  cases Node.ofAssign target operator.kind value ⟨name.location, value.span.finish⟩ with
  | ok node => exact .pure _
  | error cause => exact .lift _

theorem printed (h : Follows levels r p) :
    Follows levels (Routine.printed r) (Parser.printed p) :=
  (Follows.lift (keyword _)).bind fun _ => (Follows.lift (symbol _)).bind fun _ =>
    h.arguments.bind fun _ => .pure _

theorem returned (h : Follows levels r p) :
    Follows levels (Routine.returned r) (Parser.returned p) := by
  apply Follows.bind (.lift (keyword _))
  intro start
  apply Follows.bind (.lift (peek 0))
  intro kind
  exact ite (.pure _) (h.bind fun _ => .pure _)

theorem condition (h : Follows levels r p) :
    Follows levels (Routine.condition r) (Parser.condition p) :=
  (Follows.lift (symbol _)).bind fun _ => h.bind fun _ =>
    (Follows.lift (symbol _)).bind fun _ => .pure _

theorem branch (hb : Follows levels b q) (h : Follows levels r p) :
    Follows levels (Routine.branch b r) (Parser.branch q p) := by
  apply Follows.bind (.lift (keyword _))
  intro start
  apply h.condition.bind
  intro test
  apply hb.bind
  intro thenBody
  apply Follows.bind (.lift (accept _))
  intro taken
  exact ite (hb.bind fun _ => .pure _) (.pure _)

theorem whileLoop (hb : Follows levels b q) (h : Follows levels r p) :
    Follows levels (Routine.whileLoop b r) (Parser.whileLoop q p) :=
  (Follows.lift (keyword _)).bind fun _ => h.condition.bind fun _ => hb.bind fun _ => .pure _

theorem forLoop (hb : Follows levels b q) (h : Follows levels r p) :
    Follows levels (Routine.forLoop b r) (Parser.forLoop q p) := by
  apply Follows.bind (.lift (keyword _))
  intro start
  apply Follows.bind (.lift (symbol _))
  intro _
  apply Follows.bind (.lift identifier)
  intro name
  apply Follows.bind (.lift (resolve name))
  intro target
  apply Follows.bind (.lift (keyword _))
  intro _
  apply h.bind
  intro range
  apply Follows.bind (.lift (symbol _))
  intro _
  exact hb.bind fun _ => .pure _

theorem nativeBody (signature : Signature) :
    Follows levels (Routine.nativeBody signature) (Parser.nativeBody signature) := by
  apply Follows.bind (.lift (keyword _))
  intro start
  apply Follows.bind (.lift (expect _ _))
  intro target
  apply Follows.bind (.lift (symbol _))
  intro finish
  apply inNewScope
  · exact (Follows.lift scope).bind fun _ => .pure _
  · exact fun _ s _ => .refl s.arena

theorem functionBody (signature : Signature) (hb : Follows levels b q) :
    Follows levels (Routine.functionBody signature b) (Parser.functionBody signature q) :=
  (Follows.lift (peek 0)).bind fun _ => ite (nativeBody signature) hb

theorem functionDeclaration (hb : Follows levels b q) (hq : Keeps q) :
    Follows levels (Routine.functionDeclaration b) (Parser.functionDeclaration q) := by
  rw [functionDeclaration_eq]
  apply Follows.bind (.lift (keyword _))
  intro start
  apply Follows.bind (.lift advance)
  intro token
  apply Follows.bind (.lift (typeOf token true))
  intro returns
  apply Follows.bind (.lift identifier)
  intro name
  apply Follows.bind (.lift (symbol _))
  intro _
  apply (many (.lift parenClose) ((Follows.lift parameter).bind fun _ => .pure _)).bind
  rintro ⟨parameters, finish⟩
  apply Follows.bind (.lift scope)
  intro owner
  -- The function is declared in `owner` while the scope of its parameters is the current one.
  apply inNewScope
  · apply Follows.bind (.lift (defineAll parameters))
    intro _
    apply Follows.bind (.lift (defineFunction owner _ name start))
    intro f
    apply (functionBody _ hb).bind
    intro body _ _
    rfl
  · have hbody := @Congruence.functionBody _ congruence_keeps q q
    exact keepsOwners_declared parameters owner _ name start (hbody _ hq).keepsOwners

theorem terminated (h : Follows levels r p) :
    Follows levels (Routine.terminated r) (Parser.terminated p) :=
  h.bind fun _ => (Follows.lift (symbol _)).bind fun _ => .pure _

theorem statement (hb : Follows levels b q) (hq : Keeps q) (h : Follows levels r p) :
    Follows levels (Routine.statement b r) (Parser.statement q p) := by
  apply Follows.bind (.lift (peek 0))
  intro kind
  cases kind with
  | keyword k =>
    cases k with
    | functionKw => exact (functionDeclaration hb hq).bind fun _ => .pure _
    | ifKw => exact (branch hb h).bind fun _ => .pure _
    | whileKw => exact (whileLoop hb h).bind fun _ => .pure _
    | forKw => exact (forLoop hb h).bind fun _ => .pure _
    | intKw => exact h.variableDeclaration.terminated
    | doubleKw => exact h.variableDeclaration.terminated
    | stringKw => exact h.variableDeclaration.terminated
    | voidKw => exact h.variableDeclaration.terminated
    | printKw => exact h.printed.terminated
    | returnKw => exact h.returned.terminated
    | _ => exact .lift _
  | symbol s =>
    cases s with
    | leftBrace => exact hb.bind fun _ => .pure _
    | _ => exact h.terminated
  | identifier =>
    exact (Follows.lift (peek 1)).bind fun _ => ite h.assignment.terminated h.terminated
  | _ => exact h.terminated

theorem statementItem {r : Routine (Option Node)} {p : Parser (Option Node)}
    (h : Follows levels r p) :
    Follows levels (Routine.statementItem r) (Parser.statementItem p) :=
  (Follows.lift (accept _)).bind fun _ => ite (.pure _) (h.bind fun _ => .pure _)

theorem braced {r : Routine (Option Node)} {p : Parser (Option Node)} (h : Follows levels r p)
    (hp : Keeps (Parser.many braceClose (Parser.statementItem p))) :
    Follows levels (Routine.braced r) (Parser.braced p) := by
  apply Follows.bind (.lift (symbol _))
  intro start
  apply inNewScope
  · apply (many (.lift braceClose) h.statementItem).bind
    rintro ⟨body, finish⟩
    exact (Follows.lift scope).bind fun _ => .pure _
  · exact hp.keepsOwners.bind fun _ _ s _ => .refl s.arena

/-- By induction on the bound. -/
theorem block {bound : Nat} (h : levels ≤ bound) :
    Follows levels (Routine.block bound) (Parser.block levels) := by
  induction bound generalizing levels with
  | zero =>
    obtain rfl := Nat.le_zero.1 h
    rw [Routine.block, Parser.block]
    exact .lift _
  | succ bound ih =>
    rw [Routine.block]
    cases levels with
    | zero =>
      rw [Parser.block]
      exact tooDeep _
    | succ levels =>
      have hle := Nat.le_of_succ_le_succ h
      rw [Parser.block]
      apply nested
      apply (statement (ih hle) (congruence_keeps.block (.inl rfl)) ((expressions hle).1 1)).braced
      exact congruence_keeps.statements steady_braceClose congruence_keeps.braceClose (.inl rfl)

theorem topLevel {bound : Nat} (h : levels ≤ bound) :
    Follows levels (Routine.topLevel bound) (Parser.topLevel levels) := by
  have hkeeps : Keeps (Parser.block levels) := congruence_keeps.block (.inl rfl)
  apply Follows.bind (.lift scope)
  intro root
  apply Follows.bind (.lift here)
  intro start
  apply (many (.lift endClose)
    (statement (block h) hkeeps ((expressions h).1 1)).statementItem).bind
  rintro ⟨body, finish⟩ _ _
  rfl

end Statements

/-- Every construct, with a bound that covers the levels left. -/
theorem construct {bound : Nat} (h : levels ≤ bound) (c : Construct) :
    Follows levels (c.routine bound) (c.within levels) := by
  obtain ⟨hoperation, hunary⟩ := expressions h
  have hexpression := hoperation 1
  have hblock := block h
  have hkeeps : Keeps (Parser.block levels) := congruence_keeps.block (.inl rfl)
  cases c with
  | topLevel => exact (topLevel h).bind fun _ => .pure _
  | statement =>
    apply (statement hblock hkeeps hexpression).bind
    rintro (_ | node)
    · exact .pure _
    · exact .pure _
  | block => exact hblock.bind fun _ => .pure _
  | functionDeclaration => exact (functionDeclaration hblock hkeeps).bind fun _ => .pure _
  | variableDeclaration => exact hexpression.variableDeclaration.bind fun _ => .pure _
  | assignment => exact hexpression.assignment.bind fun _ => .pure _
  | branch => exact (branch hblock hexpression).bind fun _ => .pure _
  | whileLoop => exact (whileLoop hblock hexpression).bind fun _ => .pure _
  | forLoop => exact (forLoop hblock hexpression).bind fun _ => .pure _
  | returned => exact hexpression.returned.bind fun _ => .pure _
  | printed => exact hexpression.printed.bind fun _ => .pure _
  | expression => exact hexpression.bind fun _ => .pure _
  | operation least => exact (hoperation least).bind fun _ => .pure _
  | unary => exact hunary.bind fun _ => .pure _
  | call => exact hexpression.call.bind fun _ => .pure _
  | load => exact (Follows.lift load).bind fun _ => .pure _
  | intLiteral => exact (Follows.lift intLiteral).bind fun _ => .pure _
  | doubleLiteral => exact (Follows.lift doubleLiteral).bind fun _ => .pure _
  | arguments => exact hexpression.arguments.bind fun _ => .pure _

end Follows

end Routine

open ScriptSyntax.Parser

namespace Session

variable {α : Type}

theorem run_lift (s : Session) (p : Parser α) :
    s.run p = match p ⟨s.tokens, s.limit, s.scope⟩ ⟨s.position, s.arena⟩ with
      | .ok a t => (.ok a, { s with position := t.position, arena := t.arena })
      | .error e t => (.error e, { s with position := t.position, arena := t.arena }) := by
  have hlift : (liftM p : Routine α) s = Routine.ofParser p s := rfl
  unfold run
  rw [hlift, Routine.ofParser]
  cases p ⟨s.tokens, s.limit, s.scope⟩ ⟨s.position, s.arena⟩ <;> rfl

/-- What `p` comes to however it ends, the session comes to. -/
theorem run_of_ends {s : Session} {p : Parser α} {P : Progress → Prop}
    (h : Ends p ⟨s.tokens, s.limit, s.scope⟩ ⟨s.position, s.arena⟩ (fun _ => P) fun _ => P) :
    P ⟨(s.run p).2.position, (s.run p).2.arena⟩ := by
  rw [run_lift]
  rcases h.result with ⟨a, t, hrun, ht⟩ | ⟨e, t, hrun, ht⟩
  · rw [hrun]
    exact ht
  · rw [hrun]
    exact ht

theorem run_of_follows {s : Session} {r : Routine α} {p : Parser α}
    (h : r.Follows s.levels p) : s.run r = s.run p := by
  unfold run
  rw [h s rfl]
  rfl

/-- A construct is read with the levels that are left, and every bound that covers them comes to
that. -/
theorem run_routine {s : Session} {bound : Nat} (h : s.levels ≤ bound) (c : Construct) :
    s.run (c.routine bound) = s.run (c.within s.levels) := run_of_follows (.construct h c)

theorem read_eq (s : Session) (c : Construct) : s.read c = s.run (c.within s.levels) :=
  run_routine (Nat.sub_le _ _) c

/-- What comes of a text depends on the limit and on nothing else that the session holds. -/
theorem parse_eq (s : Session) (source : String) :
    s.parse source = match TokenList.scan source with
      | (T, some failure) => (.error failure, { new s.limit with tokens := T })
      | (T, none) =>
        match topLevel s.limit ⟨T, s.limit, Arena.root⟩ ⟨0, .fresh⟩ with
        | .ok top t =>
          (.ok ⟨t.arena, top, Arena.root⟩, { new s.limit with tokens := T, position := t.position })
        | .error failure t =>
          (.error failure, { new s.limit with tokens := T, position := t.position }) := by
  have hload : s.load source = ((TokenList.scan source).2,
      ⟨s.limit, (TokenList.scan source).1, 0, .fresh, Arena.root, 0⟩) := rfl
  unfold parse
  rw [hload]
  rcases TokenList.scan source with ⟨T, _ | failure⟩
  · -- A cleared session has all its levels left.
    have hrun : (Session.mk s.limit T 0 .fresh Arena.root 0).run (Routine.topLevel s.limit) = _ :=
      (run_of_follows (.topLevel (Nat.le_refl _))).trans (run_lift _ (topLevel s.limit))
    dsimp only
    rw [hrun]
    cases topLevel s.limit ⟨T, s.limit, Arena.root⟩ ⟨0, .fresh⟩ <;> rfl
  · rfl

end Session

/-- What comes of the tokens of a text. -/
theorem parse_of_tokenize {source : String} {T : TokenList} (limit : Nat)
    (h : tokenize source = .ok T) :
    parse limit source = match Parser.topLevel limit ⟨T, limit, Arena.root⟩ ⟨0, .fresh⟩ with
      | .ok f t => .ok ⟨t.arena, f, Arena.root⟩
      | .error e _ => .error e := by
  unfold tokenize at h
  rw [parse, Session.parse_eq]
  split at h
  · next T' hscan =>
    cases h
    rw [hscan]
    dsimp only [Session.new]
    cases Parser.topLevel limit ⟨T, limit, Arena.root⟩ ⟨0, .fresh⟩ <;> rfl
  · contradiction

theorem parse_of_tokenize_error {source : String} {e : Failure} (limit : Nat)
    (h : tokenize source = .error e) : parse limit source = .error e := by
  unfold tokenize at h
  rw [parse, Session.parse_eq]
  split at h
  · contradiction
  · next hscan =>
    cases h
    rw [hscan]

theorem Parser.parse_ok {limit : Nat} {source : String} {p : Program} :
    parse limit source = .ok p ↔ ∃ T t, tokenize source = .ok T ∧
      topLevel limit ⟨T, limit, Arena.root⟩ ⟨0, .fresh⟩ = .ok p.top ⟨t, p.arena⟩ ∧
      p.root = Arena.root := by
  constructor
  · intro h
    cases hT : tokenize source with
    | error e =>
      rw [parse_of_tokenize_error limit hT] at h
      contradiction
    | ok T =>
      rw [parse_of_tokenize limit hT] at h
      cases hrun : topLevel limit ⟨T, limit, Arena.root⟩ ⟨0, .fresh⟩ with
      | ok f t =>
        rw [hrun] at h
        cases h
        exact ⟨T, t.position, rfl, hrun, rfl⟩
      | error e t =>
        rw [hrun] at h
        contradiction
  · rintro ⟨T, t, hT, hrun, hroot⟩
    rw [parse_of_tokenize limit hT, hrun, ← hroot]

end ScriptSyntax
