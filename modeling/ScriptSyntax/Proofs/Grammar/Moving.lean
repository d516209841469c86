import ScriptSyntax.Grammar.Statement
import ScriptSyntax.Proofs.Program.Moved

/-!
The parser never looks at places: on tokens that stand elsewhere it does the same, and what it makes
stands where those tokens do.
-/

namespace ScriptSyntax

variable (φ : Location → Location)

def Context.moved (c : Context) : Context := { c with tokens := c.tokens.moved φ }

def Progress.moved (s : Progress) : Progress := { s with arena := s.arena.moved φ }

variable {φ}

theorem TokenList.size_moved (T : TokenList) : (T.moved φ).size = T.size := by
  simp only [size, moved, Array.size_map]

theorem TokenList.get_moved (hφ : φ .unknown = .unknown) (T : TokenList) (i : Nat) :
    (T.moved φ).get i = (T.get i).moved φ := by
  rw [get, get, size_moved]
  simp only [moved, Array.getElem?_map]
  cases T.tokens[i]? with
  | some t => rfl
  | none =>
    dsimp only [Option.map_none]
    by_cases hi : i = T.size
    · rw [if_pos hi, if_pos hi, if_pos hi]
      rfl
    · rw [if_neg hi, if_neg hi, if_neg hi, Token.moved, Token.ofKind, hφ]

namespace Parser

variable {α α' β β' : Type}

variable (φ) in
/-- Wherever `p` is run, `q` does the same at the moved places. What `p` yields is moved by `m`. -/
def Moves (m : α → α') (p : Parser α) (q : Parser α') : Prop :=
  ∀ c s, q (c.moved φ) (s.moved φ) = match p c s with
    | .ok a t => .ok (m a) (t.moved φ)
    | .error e t => .error (e.moved φ) (t.moved φ)

section Steps

variable {m : α → α'} {n : β → β'} {p : Parser α} {q : Parser α'}

theorem moves_pure {a : α} {b : α'} (h : m a = b) : Moves φ m (pure a) (pure b) := by
  intro c s
  rw [← h]
  rfl

theorem Moves.bind {f : α → Parser β} {g : α' → Parser β'} (h : Moves φ m p q)
    (hf : ∀ a, Moves φ n (f a) (g (m a))) : Moves φ n (p >>= f) (q >>= g) := by
  intro c s
  rw [bind_run, bind_run, h c s]
  cases p c s with
  | ok a t => exact hf a c t
  | error e t => rfl

/-- What is yielded has no place. -/
theorem Moves.seq {p q : Parser α} {f : α → Parser β} {g : α → Parser β'} (h : Moves φ id p q)
    (hf : ∀ a, Moves φ n (f a) (g a)) : Moves φ n (p >>= f) (q >>= g) := h.bind hf

theorem Moves.ite {P : Prop} [Decidable P] {p' : Parser α} {q' : Parser α'} (h : Moves φ m p q)
    (h' : Moves φ m p' q') : Moves φ m (if P then p else p') (if P then q else q') := by
  split
  · exact h
  · exact h'

theorem moves_fail {cause : Cause} {l l' : Location} (h : φ l = l') :
    Moves φ m (fail cause l) (fail cause l') := by
  intro c s
  rw [← h]
  rfl

theorem moves_scope : Moves φ id scope scope := fun _ _ => rfl

theorem moves_remaining : Moves φ id remaining remaining := by
  intro c s
  change EStateM.Result.ok _ _ = EStateM.Result.ok _ _
  rw [Context.moved, TokenList.size_moved]
  rfl

theorem moves_get : Moves φ (Progress.moved φ) get get := fun _ _ => rfl

theorem moves_modify {f g : Arena → Arena} (h : ∀ a, g (a.moved φ) = (f a).moved φ) :
    Moves φ id (modify fun s => { s with arena := f s.arena })
      (modify fun s => { s with arena := g s.arena }) := by
  intro c s
  change EStateM.Result.ok () (Progress.mk s.position (g (s.arena.moved φ))) = _
  rw [h]
  rfl

theorem Moves.inNewScope (h : Moves φ m p q) : Moves φ m (inNewScope p) (inNewScope q) := by
  intro c s
  rw [inNewScope_run, inNewScope_run]
  have hpush := Arena.moved_pushScope (φ := φ) s.arena (some c.scope)
  simp only [Context.moved, Progress.moved] at hpush ⊢
  rw [hpush]
  exact h { c with scope := (s.arena.pushScope (some c.scope)).1 }
    { s with arena := (s.arena.pushScope (some c.scope)).2 }

end Steps

variable (hφ : φ .unknown = .unknown)
include hφ

section Tokens

theorem moves_tokenAt (n : Nat) : Moves φ (Token.moved φ) (tokenAt n) (tokenAt n) := by
  intro c s
  change EStateM.Result.ok _ _ = EStateM.Result.ok _ _
  rw [Context.moved, TokenList.get_moved hφ]
  rfl

theorem moves_peek (n : Nat) : Moves φ id (peek n) (peek n) :=
  (moves_tokenAt hφ n).bind fun _ => moves_pure rfl

theorem moves_here : Moves φ φ here here := (moves_tokenAt hφ 0).bind fun _ => moves_pure rfl

theorem moves_advance : Moves φ (Token.moved φ) advance advance :=
  (moves_tokenAt hφ 0).bind fun _ => fun _ _ => rfl

theorem moves_failHere {m : α → α'} (cause : Cause) :
    Moves φ m (failHere cause) (failHere cause) :=
  (moves_here hφ).bind fun _ => moves_fail rfl

theorem moves_unexpected {m : α → α'} : Moves φ m unexpected unexpected :=
  (moves_tokenAt hφ 0).bind fun t => moves_failHere hφ (.unexpectedToken t.display)

theorem moves_tooDeep {m : α → α'} : Moves φ m tooDeep tooDeep :=
  fun c s => moves_failHere hφ (m := m) (.nestingTooDeep c.limit) c s

theorem moves_accept (kind : TokenKind) : Moves φ id (accept kind) (accept kind) := by
  apply (moves_peek hφ 0).seq
  intro k
  exact Moves.ite ((moves_advance hφ).bind fun _ => moves_pure rfl) (moves_pure rfl)

theorem moves_expect (kind : TokenKind) (what : String) :
    Moves φ (Token.moved φ) (expect kind what) (expect kind what) := by
  apply (moves_peek hφ 0).seq
  intro k
  exact Moves.ite (moves_advance hφ) (moves_failHere hφ _)

end Tokens

section Lists

variable {close : Parser (Option β)} {item : Parser (List α)} {m : List α → List α'} {n : β → β'}
variable {close' : Parser (Option β')} {item' : Parser (List α')}

theorem moves_many (hclose : Moves φ (Option.map n) close close') (hitem : Moves φ m item item')
    (hnil : m [] = []) (happend : ∀ xs ys, m (xs ++ ys) = m xs ++ m ys) :
    Moves φ (Prod.map m n) (many close item) (many close' item') := by
  have hcloseOr : ∀ {more : Parser (List α × β)} {more' : Parser (List α' × β')},
      Moves φ (Prod.map m n) more more' →
      Moves φ (Prod.map m n) (closeOr close item more) (closeOr close' item' more') := by
    intro more more' hmore
    apply hclose.bind
    rintro (_ | finish)
    · apply hitem.bind
      intro items
      apply hmore.bind
      rintro ⟨rest, finish⟩
      exact moves_pure (by rw [Prod.map_apply, happend])
    · exact moves_pure (by rw [Prod.map_apply, hnil])
  apply Moves.seq moves_remaining
  intro bound
  induction bound with
  | zero => exact hcloseOr (moves_failHere hφ _)
  | succ bound ih => exact hcloseOr ih

theorem moves_separator : Moves φ id separator separator := by
  apply (moves_accept hφ _).seq
  rintro (_ | _)
  · apply (moves_peek hφ 0).seq
    intro k
    exact Moves.ite (moves_pure rfl) (moves_failHere hφ _)
  · exact moves_pure rfl

theorem moves_parenClose : Moves φ (Option.map φ) parenClose parenClose := by
  apply (moves_here hφ).bind
  intro l
  apply (moves_accept hφ _).seq
  rintro (_ | _)
  · exact moves_pure rfl
  · exact moves_pure rfl

end Lists

section Names

omit hφ

theorem moves_resolve (t : Token) : Moves φ id (resolve t) (resolve (t.moved φ)) := by
  apply Moves.bind moves_get
  intro r
  apply Moves.seq moves_scope
  intro s
  dsimp only [Progress.moved, Token.moved]
  rw [Arena.lookupVariable?_moved]
  cases r.arena.lookupVariable? s t.text with
  | some x => exact moves_pure rfl
  | none => exact moves_fail rfl

theorem moves_define (type : ValueType) (t : Token) :
    Moves φ id (define type t) (define type (t.moved φ)) := by
  apply Moves.seq moves_scope
  intro s
  apply Moves.bind moves_get
  intro r
  have hd := r.arena.moved_defineVariable (φ := φ) s ⟨type, t.text, s, t.location⟩ false
  dsimp only [Progress.moved, Token.moved]
  rw [show (⟨type, t.text, s, φ t.location⟩ : Variable) =
    Variable.moved φ ⟨type, t.text, s, t.location⟩ from rfl, hd]
  cases r.arena.defineVariable s ⟨type, t.text, s, t.location⟩ false with
  | ok d =>
    have hset := moves_modify (φ := φ) (f := fun _ => d.2) (g := fun _ => d.2.moved φ) fun _ => rfl
    exact hset.seq fun _ => moves_pure rfl
  | error _ => exact moves_fail rfl

end Names

section Expressions

variable {p p' : Parser Node}

theorem moves_intLiteral : Moves φ (Node.moved φ) intLiteral intLiteral := by
  apply (moves_expect hφ _ _).bind
  intro t
  dsimp only [Token.moved]
  cases intLiteral? t.text with
  | some v => exact moves_pure (by rw [Node.moved]; rfl)
  | none => exact moves_fail rfl

theorem moves_doubleLiteral : Moves φ (Node.moved φ) doubleLiteral doubleLiteral := by
  apply (moves_expect hφ _ _).bind
  intro t
  dsimp only [Token.moved]
  cases doubleLiteral? t.text with
  | some v => exact moves_pure (by rw [Node.moved]; rfl)
  | none => exact moves_fail rfl

theorem moves_stringLiteral : Moves φ (Node.moved φ) stringLiteral stringLiteral :=
  (moves_advance hφ).bind fun _ => moves_pure (by rw [Node.moved]; rfl)

theorem moves_load : Moves φ (Node.moved φ) load load := by
  apply (moves_expect hφ _ _).bind
  intro name
  exact (moves_resolve name).seq fun _ => moves_pure (by rw [Node.moved]; rfl)

theorem moves_arguments (h : Moves φ (Node.moved φ) p p') :
    Moves φ (Prod.map (movedOf φ) φ) (arguments p) (arguments p') := by
  apply moves_many hφ (moves_parenClose hφ) ?_ rfl movedOf_append
  apply h.bind
  intro n
  exact (moves_separator hφ).seq fun _ => moves_pure rfl

theorem moves_call (h : Moves φ (Node.moved φ) p p') :
    Moves φ (Node.moved φ) (call p) (call p') := by
  apply (moves_expect hφ _ _).bind
  intro name
  apply (moves_expect hφ _ _).bind
  intro _
  apply Moves.bind moves_get
  intro r
  apply Moves.seq moves_scope
  intro s
  apply (moves_arguments hφ h).bind
  rintro ⟨members, finish⟩
  apply moves_pure
  dsimp only [Progress.moved, Token.moved, Prod.map_apply]
  rw [Arena.lookupFunction?_moved, Node.moved]
  rfl

theorem moves_applied (h : Moves φ (Node.moved φ) p p') :
    Moves φ (Node.moved φ) (applied p) (applied p') := by
  apply (moves_advance hφ).bind
  intro operator
  apply h.bind
  intro inner
  dsimp only [Token.moved]
  unfold Node.ofUnary
  cases UnaryOperator.ofKind? operator.kind with
  | some o => exact moves_pure (by rw [Node.moved, Node.span_moved]; rfl)
  | none => exact moves_fail rfl

theorem moves_parenthesised (h : Moves φ (Node.moved φ) p p') :
    Moves φ (Node.moved φ) (parenthesised p) (parenthesised p') := by
  apply (moves_advance hφ).bind
  intro _
  apply h.bind
  intro inner
  exact (moves_expect hφ _ _).bind fun _ => moves_pure rfl

theorem moves_operand {signed signed' : Parser Node}
    (hsigned : Moves φ (Node.moved φ) signed signed') (h : Moves φ (Node.moved φ) p p') :
    Moves φ (Node.moved φ) (operand signed p) (operand signed' p') := by
  apply (moves_peek hφ 0).seq
  intro k
  -- Both runs see the same kind of token, and take the same branch.
  split
  · exact hsigned
  · exact hsigned
  · exact moves_parenthesised hφ h
  · apply (moves_peek hφ 1).seq
    intro k'
    exact Moves.ite (moves_call hφ h) (moves_load hφ)
  · exact moves_intLiteral hφ
  · exact moves_doubleLiteral hφ
  · exact moves_stringLiteral hφ
  · exact moves_failHere hφ _
  · exact moves_unexpected hφ

omit hφ in
theorem moves_combined (operator : Token) (left right : Node) :
    Moves φ (Node.moved φ) (combined operator left right)
      (combined (operator.moved φ) (left.moved φ) (right.moved φ)) := by
  unfold combined Node.ofBinary
  dsimp only [Token.moved]
  cases BinaryOperator.ofKind? operator.kind with
  | some o => exact moves_pure (by rw [Node.moved, Node.span_moved, Node.span_moved]; rfl)
  | none => exact moves_fail rfl

theorem moves_climb {right right' : Nat → Parser Node}
    (h : ∀ least, Moves φ (Node.moved φ) (right least) (right' least)) (least bound : Nat)
    (left : Node) :
    Moves φ (Node.moved φ) (climb right least bound left)
      (climb right' least bound (left.moved φ)) := by
  induction bound generalizing left with
  | zero => exact moves_pure rfl
  | succ bound ih =>
    rw [climb, climb]
    apply (moves_peek hφ 0).seq
    intro k
    apply Moves.ite _ (moves_pure rfl)
    apply (moves_advance hφ).bind
    intro operator
    apply (h _).bind
    intro other
    exact (moves_combined operator left other).bind fun left => ih left

theorem moves_chain {right right' : Nat → Parser Node} (h : Moves φ (Node.moved φ) p p')
    (hright : ∀ least, Moves φ (Node.moved φ) (right least) (right' least)) (least : Nat) :
    Moves φ (Node.moved φ) (chain p right least) (chain p' right' least) := by
  apply h.bind
  intro left
  apply Moves.seq moves_remaining
  intro bound
  exact moves_climb hφ hright least bound left

/-- By induction on the levels of nesting that are left. -/
theorem moves_levels (levels : Nat) :
    (∀ least, Moves φ (Node.moved φ) (expression levels least) (expression levels least)) ∧
      Moves φ (Node.moved φ) (unary levels) (unary levels) := by
  induction levels with
  | zero =>
    refine ⟨fun least => ?_, ?_⟩
    · rw [expression]
      exact moves_tooDeep hφ
    · rw [unary]
      exact moves_operand hφ (moves_tooDeep hφ) (moves_tooDeep hφ)
  | succ levels ih =>
    have hexpression : ∀ least, Moves φ (Node.moved φ) (expression (levels + 1) least)
        (expression (levels + 1) least) := by
      intro least
      rw [expression]
      exact moves_chain hφ ih.2 ih.1 least
    refine ⟨hexpression, ?_⟩
    rw [unary_succ]
    exact moves_operand hφ (moves_applied hφ ih.2) (hexpression 1)

end Expressions

section Statements

variable {p p' : Parser Node} {q q' : Parser Block}

omit hφ in
theorem moves_typeOf (t : Token) (voidAllowed : Bool) :
    Moves φ id (typeOf t voidAllowed) (typeOf (t.moved φ) voidAllowed) := by
  unfold typeOf
  dsimp only [Token.moved]
  cases ValueType.ofKind? t.kind with
  | some type => exact Moves.ite (moves_fail rfl) (moves_pure rfl)
  | none => exact moves_fail rfl

theorem moves_variableDeclaration (h : Moves φ (Node.moved φ) p p') :
    Moves φ (Node.moved φ) (variableDeclaration p) (variableDeclaration p') := by
  apply (moves_advance hφ).bind
  intro start
  apply (moves_typeOf start false).seq
  intro type
  apply (moves_expect hφ _ _).bind
  intro name
  apply (moves_expect hφ _ _).bind
  intro _
  apply h.bind
  intro value
  apply (moves_define type name).seq
  intro x
  exact moves_pure (by rw [Node.moved, Node.span_moved]; rfl)

theorem moves_assignment (h : Moves φ (Node.moved φ) p p') :
    Moves φ (Node.moved φ) (assignment p) (assignment p') := by
  apply (moves_expect hφ _ _).bind
  intro name
  apply (moves_resolve name).seq
  intro target
  apply (moves_advance hφ).bind
  intro operator
  apply h.bind
  intro value
  unfold Node.ofAssign
  dsimp only [Token.moved]
  cases AssignOperator.ofKind? operator.kind with
  | some o => exact moves_pure (by rw [Node.moved, Node.span_moved]; rfl)
  | none => exact moves_fail rfl

theorem moves_printed (h : Moves φ (Node.moved φ) p p') :
    Moves φ (Node.moved φ) (printed p) (printed p') := by
  apply (moves_expect hφ _ _).bind
  intro start
  apply (moves_expect hφ _ _).bind
  intro _
  apply (moves_arguments hφ h).bind
  rintro ⟨members, finish⟩
  exact moves_pure (by rw [Node.moved]; rfl)

theorem moves_returned (h : Moves φ (Node.moved φ) p p') :
    Moves φ (Node.moved φ) (returned p) (returned p') := by
  apply (moves_expect hφ _ _).bind
  intro start
  apply (moves_peek hφ 0).seq
  intro k
  apply Moves.ite (moves_pure (by rw [Node.moved]; rfl))
  apply h.bind
  intro value
  exact moves_pure (by rw [Node.moved, Node.span_moved]; rfl)

theorem moves_condition (h : Moves φ (Node.moved φ) p p') :
    Moves φ (Node.moved φ) (condition p) (condition p') := by
  apply (moves_expect hφ _ _).bind
  intro _
  apply h.bind
  intro node
  exact (moves_expect hφ _ _).bind fun _ => moves_pure rfl

theorem moves_branch (hq : Moves φ (Block.moved φ) q q') (h : Moves φ (Node.moved φ) p p') :
    Moves φ (Node.moved φ) (branch q p) (branch q' p') := by
  apply (moves_expect hφ _ _).bind
  intro start
  apply (moves_condition hφ h).bind
  intro test
  apply hq.bind
  intro thenBody
  apply (moves_accept hφ _).seq
  rintro (_ | _)
  · exact moves_pure (by rw [Node.moved, Block.span_moved]; rfl)
  · apply hq.bind
    intro elseBody
    exact moves_pure (by rw [Node.moved, Block.span_moved]; rfl)

theorem moves_whileLoop (hq : Moves φ (Block.moved φ) q q') (h : Moves φ (Node.moved φ) p p') :
    Moves φ (Node.moved φ) (whileLoop q p) (whileLoop q' p') := by
  apply (moves_expect hφ _ _).bind
  intro start
  apply (moves_condition hφ h).bind
  intro test
  apply hq.bind
  intro body
  exact moves_pure (by rw [Node.moved, Block.span_moved]; rfl)

theorem moves_forLoop (hq : Moves φ (Block.moved φ) q q') (h : Moves φ (Node.moved φ) p p') :
    Moves φ (Node.moved φ) (forLoop q p) (forLoop q' p') := by
  apply (moves_expect hφ _ _).bind
  intro start
  apply (moves_expect hφ _ _).bind
  intro _
  apply (moves_expect hφ _ _).bind
  intro name
  apply (moves_resolve name).seq
  intro target
  apply (moves_expect hφ _ _).bind
  intro _
  apply h.bind
  intro range
  apply (moves_expect hφ _ _).bind
  intro _
  apply hq.bind
  intro body
  exact moves_pure (by rw [Node.moved, Block.span_moved]; rfl)

end Statements

section Declarations

variable {q q' : Parser Block}

/-- The type and the name of a parameter. -/
abbrev movedParameter (φ : Location → Location) : ValueType × Token → ValueType × Token :=
  Prod.map id (Token.moved φ)

theorem moves_parameter : Moves φ (movedParameter φ) parameter parameter := by
  apply (moves_advance hφ).bind
  intro t
  apply (moves_typeOf t false).seq
  intro type
  apply (moves_expect hφ _ _).bind
  intro name
  exact (moves_separator hφ).seq fun _ => moves_pure rfl

theorem moves_parameters :
    Moves φ (Prod.map (List.map (movedParameter φ)) φ) (many parenClose do return [← parameter])
      (many parenClose do return [← parameter]) := by
  apply moves_many hφ (moves_parenClose hφ) ?_ rfl fun _ _ => List.map_append
  exact (moves_parameter hφ).bind fun _ => moves_pure rfl

theorem moves_nativeBody (signature : Signature) :
    Moves φ (Block.moved φ) (nativeBody signature) (nativeBody signature) := by
  apply (moves_expect hφ _ _).bind
  intro start
  apply (moves_expect hφ _ _).bind
  intro target
  apply (moves_expect hφ _ _).bind
  intro finish
  apply Moves.inNewScope
  apply Moves.seq moves_scope
  intro s
  exact moves_pure (by rw [Block.moved, movedOf, Node.moved]; rfl)

omit hφ

theorem moves_defineFunction (owner : ScopeId) (signature : Signature) (name start : Token) :
    Moves φ id (defineFunction owner signature name start)
      (defineFunction owner signature (name.moved φ) (start.moved φ)) := by
  apply Moves.seq moves_scope
  intro s
  apply Moves.bind moves_get
  intro r
  let function : Function :=
    ⟨signature, owner, s, ⟨s, [], .single start.location⟩, .single start.location⟩
  have hfunction : function.moved φ = ⟨signature, owner, s,
      ⟨s, [], .single (φ start.location)⟩, .single (φ start.location)⟩ := by
    rw [Function.moved, Block.moved]
    rfl
  have hd := r.arena.moved_defineFunction (φ := φ) owner function false
  rw [hfunction] at hd
  dsimp only [Progress.moved, Token.moved]
  rw [hd]
  cases r.arena.defineFunction owner function false with
  | ok d =>
    have hset := moves_modify (φ := φ) (f := fun _ => d.2) (g := fun _ => d.2.moved φ) fun _ => rfl
    exact hset.seq fun _ => moves_pure rfl
  | error _ => exact moves_fail rfl

theorem moves_defineAll (ps : List (ValueType × Token)) :
    Moves φ id (defineAll ps) (defineAll (ps.map (movedParameter φ))) := by
  induction ps with
  | nil => exact moves_pure rfl
  | cons p ps ih => exact (moves_define p.1 p.2).seq fun _ => ih

include hφ

theorem moves_functionDeclaration (hq : Moves φ (Block.moved φ) q q') :
    Moves φ id (functionDeclaration q) (functionDeclaration q') := by
  apply (moves_expect hφ _ _).bind
  intro start
  apply (moves_advance hφ).bind
  intro t
  apply (moves_typeOf t true).seq
  intro returns
  apply (moves_expect hφ _ _).bind
  intro name
  apply (moves_expect hφ _ _).bind
  intro _
  apply (moves_parameters hφ).bind
  rintro ⟨parameters, finish⟩
  apply Moves.seq moves_scope
  intro owner
  apply Moves.inNewScope
  apply (moves_defineAll parameters).seq
  intro _
  -- The signature has no place in it.
  have hsignature : ∀ f : ValueType × Token → Parameter, (∀ q, f (movedParameter φ q) = f q) →
      (parameters.map (movedParameter φ)).map f = parameters.map f := by
    intro f hf
    rw [List.map_map]
    exact List.map_congr_left fun q _ => hf q
  dsimp only [Prod.map_apply]
  rw [hsignature _ fun _ => rfl]
  apply (moves_defineFunction owner _ name start).seq
  intro f
  have hset : ∀ body : Block, Moves φ id
      (do
        modify fun s =>
          { s with arena := s.arena.setBody f body ⟨start.location, body.span.finish⟩ }
        return f)
      (do
        modify fun s => { s with
          arena := s.arena.setBody f (body.moved φ)
            ⟨(start.moved φ).location, (body.moved φ).span.finish⟩ }
        return f) := by
    intro body
    have hbody := moves_modify (φ := φ)
      (f := fun a => a.setBody f body ⟨start.location, body.span.finish⟩)
      (g := fun a => a.setBody f (body.moved φ) ⟨φ start.location, (body.moved φ).span.finish⟩)
      fun a => by
        rw [Block.span_moved]
        exact a.moved_setBody f body ⟨start.location, body.span.finish⟩
    exact hbody.seq fun _ => moves_pure rfl
  apply (moves_peek hφ 0).seq
  intro k
  exact Moves.ite ((moves_nativeBody hφ _).bind hset) (hq.bind hset)

end Declarations

section Blocks

variable {p p' : Parser Node} {q q' : Parser Block} {r r' : Parser (Option Node)}

theorem moves_terminated (h : Moves φ (Node.moved φ) p p') :
    Moves φ (Option.map (Node.moved φ)) (terminated p) (terminated p') := by
  apply h.bind
  intro node
  exact (moves_expect hφ _ _).bind fun _ => moves_pure rfl

theorem moves_statement (hq : Moves φ (Block.moved φ) q q') (h : Moves φ (Node.moved φ) p p') :
    Moves φ (Option.map (Node.moved φ)) (statement q p) (statement q' p') := by
  apply (moves_peek hφ 0).seq
  intro k
  split
  · exact (moves_functionDeclaration hφ hq).seq fun _ => moves_pure rfl
  · exact hq.bind fun _ => moves_pure (by rw [Option.map_some, Node.moved])
  · exact (moves_branch hφ hq h).bind fun _ => moves_pure rfl
  · exact (moves_whileLoop hφ hq h).bind fun _ => moves_pure rfl
  · exact (moves_forLoop hφ hq h).bind fun _ => moves_pure rfl
  · exact moves_terminated hφ (moves_variableDeclaration hφ h)
  · exact moves_terminated hφ (moves_variableDeclaration hφ h)
  · exact moves_terminated hφ (moves_variableDeclaration hφ h)
  · exact moves_terminated hφ (moves_variableDeclaration hφ h)
  · exact moves_terminated hφ (moves_printed hφ h)
  · exact moves_terminated hφ (moves_returned hφ h)
  · exact moves_unexpected hφ
  · apply (moves_peek hφ 1).seq
    intro k'
    exact Moves.ite (moves_terminated hφ (moves_assignment hφ h)) (moves_terminated hφ h)
  · exact moves_terminated hφ h

theorem moves_statementItem (h : Moves φ (Option.map (Node.moved φ)) r r') :
    Moves φ (movedOf φ) (statementItem r) (statementItem r') := by
  apply (moves_accept hφ _).seq
  rintro (_ | _)
  · exact h.bind fun o => moves_pure (movedOf_toList o)
  · exact moves_pure rfl

theorem moves_braceClose : Moves φ (Option.map φ) braceClose braceClose := by
  apply (moves_peek hφ 0).seq
  intro k
  split
  · exact (moves_advance hφ).bind fun _ => moves_pure rfl
  · exact moves_failHere hφ _
  · exact moves_pure rfl

theorem moves_endClose : Moves φ (Option.map φ) endClose endClose := by
  apply (moves_peek hφ 0).seq
  intro k
  exact Moves.ite ((moves_here hφ).bind fun _ => moves_pure rfl) (moves_pure rfl)

theorem moves_braced (h : Moves φ (Option.map (Node.moved φ)) r r') :
    Moves φ (Block.moved φ) (braced r) (braced r') := by
  apply (moves_expect hφ _ _).bind
  intro start
  apply Moves.inNewScope
  have hitems := moves_many hφ (moves_braceClose hφ) (moves_statementItem hφ h) rfl movedOf_append
  apply hitems.bind
  rintro ⟨body, finish⟩
  exact Moves.seq moves_scope fun _ => moves_pure (by rw [Block.moved]; rfl)

theorem moves_block (levels : Nat) : Moves φ (Block.moved φ) (block levels) (block levels) := by
  induction levels with
  | zero =>
    rw [block]
    exact moves_tooDeep hφ
  | succ levels ih =>
    rw [block]
    exact moves_braced hφ (moves_statement hφ ih ((moves_levels hφ levels).1 1))

theorem moves_topLevel (limit : Nat) : Moves φ id (topLevel limit) (topLevel limit) := by
  apply Moves.seq moves_scope
  intro root
  apply (moves_here hφ).bind
  intro start
  have hitems := moves_many hφ (moves_endClose hφ) (moves_statementItem hφ
    (moves_statement hφ (moves_block hφ limit) ((moves_levels hφ limit).1 1))) rfl movedOf_append
  apply hitems.bind
  rintro ⟨body, finish⟩
  apply Moves.bind moves_get
  intro s
  let top : Function :=
    ⟨⟨.void, Program.topName, []⟩, root, root, ⟨root, body, ⟨start, finish⟩⟩, ⟨start, finish⟩⟩
  have htop : top.moved φ = ⟨⟨.void, Program.topName, []⟩, root, root,
      ⟨root, movedOf φ body, ⟨φ start, φ finish⟩⟩, ⟨φ start, φ finish⟩⟩ := by
    rw [Function.moved, Block.moved]
    rfl
  have hadd := s.arena.moved_addFunction (φ := φ) top
  rw [htop] at hadd
  dsimp only [Progress.moved, Prod.map_apply]
  rw [hadd]
  exact (moves_modify (g := fun _ => (s.arena.addFunction top).2.moved φ) fun _ => rfl).seq
    fun _ => moves_pure rfl

end Blocks

end Parser

end ScriptSyntax
