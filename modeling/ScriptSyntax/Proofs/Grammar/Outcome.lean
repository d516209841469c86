import Mathlib.Logic.Basic
import Mathlib.Tactic.MkIffOfInductiveProp
import ScriptSyntax.Proofs.Grammar.Derivation

/-!
When the building blocks of parsers succeed, and with what. Each equivalence is read from left to
right to take a successful run apart, and from right to left to put one together.
-/

namespace ScriptSyntax.Parser

variable {α β : Type} {c : Context} {s s' : Progress}

theorem pure_ok {a b : α} : (pure a : Parser α) c s = .ok b s' ↔ a = b ∧ s = s' := by
  rw [pure_run, EStateM.Result.ok.injEq]

theorem bind_ok {p : Parser α} {f : α → Parser β} {b : β} :
    (p >>= f) c s = .ok b s' ↔ ∃ a t, p c s = .ok a t ∧ f a c t = .ok b s' := by
  rw [bind_run]
  cases p c s with
  | ok a t => simp only [EStateM.Result.ok.injEq, and_assoc, exists_eq_left', exists_and_left]
  | error e t => simp

theorem map_ok {p : Parser α} {f : α → β} {b : β} :
    (f <$> p) c s = .ok b s' ↔ ∃ a, p c s = .ok a s' ∧ f a = b := by
  rw [map_eq_pure_bind, bind_ok]
  simp only [pure_ok, exists_eq_right_right]

theorem fail_ok {cause : Cause} {l : Location} {a : α} :
    (fail cause l : Parser α) c s = .ok a s' ↔ False := by
  rw [fail_run]
  exact ⟨nofun, nofun⟩

theorem ite_ok {P : Prop} [Decidable P] {p q : Parser α} {a : α} :
    (if P then p else q) c s = .ok a s' ↔
      P ∧ p c s = .ok a s' ∨ ¬ P ∧ q c s = .ok a s' := by
  split <;> simp [*]

theorem get_ok {t : Progress} : (get : Parser Progress) c s = .ok t s' ↔ s = t ∧ s = s' :=
  pure_ok (c := c)

theorem modify_ok {f : Progress → Progress} {u : Unit} :
    (modify f : Parser Unit) c s = .ok u s' ↔ f s = s' := by
  change EStateM.Result.ok () (f s) = _ ↔ _
  rw [EStateM.Result.ok.injEq, eq_self, true_and]

theorem scope_ok {q : ScopeId} : scope c s = .ok q s' ↔ c.scope = q ∧ s = s' :=
  pure_ok (c := c)

theorem peek_ok {n : Nat} {k : TokenKind} :
    peek n c s = .ok k s' ↔ (c.tokens.get (s.position + n)).kind = k ∧ s = s' :=
  pure_ok (c := c)

theorem here_ok {l : Location} :
    here c s = .ok l s' ↔ (c.tokens.get s.position).location = l ∧ s = s' :=
  pure_ok (c := c)

theorem remaining_ok {n : Nat} :
    remaining c s = .ok n s' ↔ c.tokens.size - s.position = n ∧ s = s' :=
  pure_ok (c := c)

theorem advance_ok {t : Token} :
    advance c s = .ok t s' ↔
      c.tokens.get s.position = t ∧ { s with position := s.position + 1 } = s' := by
  rw [advance_run, EStateM.Result.ok.injEq]

theorem expect_ok {kind : TokenKind} {what : String} {t : Token} :
    expect kind what c s = .ok t s' ↔
      (c.tokens.get s.position).kind = kind ∧ c.tokens.get s.position = t ∧
        { s with position := s.position + 1 } = s' := by
  rw [expect_run]
  split <;> simp [*]

theorem accept_ok {kind : TokenKind} {b : Bool} :
    accept kind c s = .ok b s' ↔
      (c.tokens.get s.position).kind = kind ∧ true = b ∧
          { s with position := s.position + 1 } = s' ∨
        (c.tokens.get s.position).kind ≠ kind ∧ false = b ∧ s = s' := by
  rw [accept_run]
  split <;> simp [*]

theorem inNewScope_ok {p : Parser α} {a : α} :
    inNewScope p c s = .ok a s' ↔
      p { c with scope := (s.arena.pushScope (some c.scope)).1 }
        { s with arena := (s.arena.pushScope (some c.scope)).2 } = .ok a s' := by
  rw [inNewScope_run]

theorem resolve_ok {name : Token} {x : VariableId} :
    resolve name c s = .ok x s' ↔
      s.arena.lookupVariable? c.scope name.text = some x ∧ s = s' := by
  simp only [resolve, bind_ok, get_ok, scope_ok, and_assoc, exists_eq_left', exists_and_left]
  cases s.arena.lookupVariable? c.scope name.text <;> simp [pure_ok, fail_ok]

theorem define_ok {type : ValueType} {name : Token} {x : VariableId} :
    define type name c s = .ok x s' ↔ ∃ a,
      s.arena.defineVariable c.scope ⟨type, name.text, c.scope, name.location⟩ false =
          .ok (x, a) ∧
        { s with arena := a } = s' := by
  simp only [define, bind_ok, get_ok, scope_ok, and_assoc, exists_eq_left', exists_and_left]
  cases s.arena.defineVariable c.scope ⟨type, name.text, c.scope, name.location⟩ false with
  | ok r =>
    rcases r with ⟨y, a⟩
    simp only [bind_ok, modify_ok, pure_ok, Except.ok.injEq, Prod.mk.injEq, and_assoc,
      exists_eq_left', exists_and_left, exists_const]
  | error y => simp only [fail_ok, reduceCtorEq, false_and, exists_false]

theorem typeOf_ok {token : Token} {voidAllowed : Bool} {type : ValueType} :
    typeOf token voidAllowed c s = .ok type s' ↔
      ValueType.ofKind? token.kind = some type ∧ ¬ (type = .void ∧ voidAllowed = false) ∧
        s = s' := by
  unfold typeOf
  cases ValueType.ofKind? token.kind with
  | none => simp [fail_ok]
  | some t => simp only [ite_ok, fail_ok, pure_ok]; grind

theorem separator_ok {u : Unit} :
    separator c s = .ok u s' ↔
      (c.tokens.get s.position).kind = Symbol.comma ∧ { s with position := s.position + 1 } = s' ∨
        (c.tokens.get s.position).kind = Symbol.rightParen ∧ s = s' := by
  simp only [separator, failHere, bind_ok, accept_ok, ite_ok, peek_ok, here_ok, pure_ok, fail_ok]
  by_cases h : (c.tokens.get s.position).kind = Symbol.comma <;> simp [h, and_assoc]

theorem parenClose_ok {o : Option Location} :
    parenClose c s = .ok o s' ↔
      (c.tokens.get s.position).kind = Symbol.rightParen ∧
          some (c.tokens.get s.position).location = o ∧
          { s with position := s.position + 1 } = s' ∨
        (c.tokens.get s.position).kind ≠ Symbol.rightParen ∧ none = o ∧ s = s' := by
  simp only [parenClose, bind_ok, here_ok, accept_ok, ite_ok, pure_ok, and_assoc, exists_eq_left',
    exists_and_left]
  by_cases h : (c.tokens.get s.position).kind = Symbol.rightParen <;> simp [h, and_assoc]

theorem closeOr_ok {close : Parser (Option β)} {item : Parser (List α)}
    {more : Parser (List α × β)} {r : List α × β} :
    closeOr close item more c s = .ok r s' ↔
      (∃ finish, close c s = .ok (some finish) s' ∧ ([], finish) = r) ∨
        ∃ t items u rest, close c s = .ok none t ∧ item c t = .ok items u ∧
          more c u = .ok rest s' ∧ (items ++ rest.1, rest.2) = r := by
  unfold closeOr
  rw [bind_ok]
  constructor
  · rintro ⟨o, t, hc, h⟩
    cases o with
    | some finish =>
      obtain ⟨rfl, rfl⟩ := pure_ok.1 h
      exact Or.inl ⟨finish, hc, rfl⟩
    | none =>
      obtain ⟨items, u, hi, h⟩ := bind_ok.1 h
      obtain ⟨rest, v, hm, h⟩ := bind_ok.1 h
      obtain ⟨rfl, rfl⟩ := pure_ok.1 h
      exact Or.inr ⟨t, items, u, rest, hc, hi, hm, rfl⟩
  · rintro (⟨finish, hc, rfl⟩ | ⟨t, items, u, rest, hc, hi, hm, rfl⟩)
    · exact ⟨_, _, hc, pure_ok.2 ⟨rfl, rfl⟩⟩
    · exact ⟨_, _, hc, bind_ok.2 ⟨_, _, hi, bind_ok.2 ⟨_, _, hm, pure_ok.2 ⟨rfl, rfl⟩⟩⟩⟩

theorem many_ok {close : Parser (Option β)} {item : Parser (List α)} {r : List α × β} :
    many close item c s = .ok r s' ↔
      manyFrom close item (c.tokens.size - s.position) c s = .ok r s' := by
  simp only [many, bind_ok, remaining_ok, and_assoc, exists_eq_left', exists_and_left]

/-- What holds at the end and is kept by each item in front of it holds of the whole list. -/
theorem many_rule {close : Parser (Option β)} {item : Parser (List α)}
    (P : Progress → List α → β → Progress → Prop)
    (hclose : ∀ {s finish s'}, close c s = .ok (some finish) s' → P s [] finish s')
    (hitem : ∀ {s t items u rest finish s'}, close c s = .ok none t → item c t = .ok items u →
      P u rest finish s' → P s (items ++ rest) finish s')
    {r : List α × β} (h : many close item c s = .ok r s') : P s r.1 r.2 s' := by
  rw [many_ok] at h
  generalize c.tokens.size - s.position = bound at h
  induction bound generalizing s r with
  | zero =>
    obtain ⟨finish, hc, rfl⟩ | ⟨_, _, _, _, _, _, hm, _⟩ := closeOr_ok.1 h
    · exact hclose hc
    · obtain ⟨_, _, _, hm⟩ := bind_ok.1 hm
      exact (fail_ok.1 hm).elim
  | succ bound ih =>
    obtain ⟨finish, hc, rfl⟩ | ⟨_, _, _, rest, hc, hi, hm, rfl⟩ := closeOr_ok.1 h
    · exact hclose hc
    · exact hitem hc hi (ih hm)

theorem intLiteral_ok {n : Node} :
    intLiteral c s = .ok n s' ↔ (c.tokens.get s.position).kind = .intLiteral ∧
      ∃ v, intLiteral? (c.tokens.get s.position).text = some v ∧
        .int v (.single (c.tokens.get s.position).location) = n ∧
        { s with position := s.position + 1 } = s' := by
  simp only [intLiteral, bind_ok, expect_ok, and_assoc, exists_eq_left', exists_and_left]
  cases intLiteral? (c.tokens.get s.position).text <;> simp [pure_ok, fail_ok]

theorem doubleLiteral_ok {n : Node} :
    doubleLiteral c s = .ok n s' ↔ (c.tokens.get s.position).kind = .doubleLiteral ∧
      ∃ v, doubleLiteral? (c.tokens.get s.position).text = some v ∧
        .double v (.single (c.tokens.get s.position).location) = n ∧
        { s with position := s.position + 1 } = s' := by
  simp only [doubleLiteral, bind_ok, expect_ok, and_assoc, exists_eq_left', exists_and_left]
  cases doubleLiteral? (c.tokens.get s.position).text <;> simp [pure_ok, fail_ok]

theorem stringLiteral_ok {n : Node} :
    stringLiteral c s = .ok n s' ↔
      .string (c.tokens.get s.position).text (.single (c.tokens.get s.position).location) = n ∧
        { s with position := s.position + 1 } = s' := by
  simp only [stringLiteral, bind_ok, advance_ok, pure_ok, and_assoc, exists_eq_left',
    exists_and_left]

theorem load_ok {n : Node} :
    load c s = .ok n s' ↔ (c.tokens.get s.position).kind = .identifier ∧
      ∃ x, s.arena.lookupVariable? c.scope (c.tokens.get s.position).text = some x ∧
        .load x (.single (c.tokens.get s.position).location) = n ∧
        { s with position := s.position + 1 } = s' := by
  simp only [load, identifier, bind_ok, expect_ok, resolve_ok, pure_ok, and_assoc,
    exists_eq_left', exists_and_left]

theorem call_ok {p : Parser Node} {n : Node} :
    call p c s = .ok n s' ↔ (c.tokens.get s.position).kind = .identifier ∧
      (c.tokens.get (s.position + 1)).kind = Symbol.leftParen ∧
      ∃ r, arguments p c { s with position := s.position + 1 + 1 } = .ok r s' ∧
        .call (c.tokens.get s.position).text
          (s.arena.lookupFunction? c.scope (c.tokens.get s.position).text) r.1
          ⟨(c.tokens.get s.position).location, r.2⟩ = n := by
  simp only [call, identifier, symbol, bind_ok, expect_ok, get_ok, scope_ok, pure_ok, and_assoc,
    exists_eq_left', exists_and_left, exists_eq_right_right]

theorem ofUnary_ok {k : TokenKind} {m n : Node} {l : Span} :
    Node.ofUnary k m l = .ok n ↔ ∃ o : UnaryOperator, k = o.symbol ∧ .unary o m l = n := by
  simp only [Node.ofUnary, ← UnaryOperator.ofKind?_eq_some]
  cases UnaryOperator.ofKind? k <;> simp

theorem ofBinary_ok {k : TokenKind} {m m' n : Node} {l : Span} :
    Node.ofBinary k m m' l = .ok n ↔
      ∃ o : BinaryOperator, k = o.symbol ∧ .binary o m m' l = n := by
  simp only [Node.ofBinary, ← BinaryOperator.ofKind?_eq_some]
  cases BinaryOperator.ofKind? k <;> simp

theorem ofAssign_ok {k : TokenKind} {x : VariableId} {m n : Node} {l : Span} :
    Node.ofAssign x k m l = .ok n ↔
      ∃ o : AssignOperator, k = o.symbol ∧ .assign x o m l = n := by
  simp only [Node.ofAssign, ← AssignOperator.ofKind?_eq_some]
  cases AssignOperator.ofKind? k <;> simp

theorem applied_ok {p : Parser Node} {n : Node} :
    applied p c s = .ok n s' ↔ ∃ m, p c { s with position := s.position + 1 } = .ok m s' ∧
      ∃ o : UnaryOperator, (c.tokens.get s.position).kind = o.symbol ∧
        .unary o m ⟨(c.tokens.get s.position).location, m.span.finish⟩ = n := by
  simp only [applied, bind_ok, advance_ok, and_assoc, exists_eq_left', exists_and_left]
  simp only [← ofUnary_ok]
  refine exists_congr fun m => ?_
  cases Node.ofUnary (c.tokens.get s.position).kind m
      ⟨(c.tokens.get s.position).location, m.span.finish⟩ <;>
    simp [pure_ok, fail_ok]

theorem parenthesised_ok {p : Parser Node} {n : Node} :
    parenthesised p c s = .ok n s' ↔ ∃ t, p c { s with position := s.position + 1 } = .ok n t ∧
      (c.tokens.get t.position).kind = Symbol.rightParen ∧
      { t with position := t.position + 1 } = s' := by
  simp only [parenthesised, symbol, bind_ok, advance_ok, expect_ok, pure_ok, and_assoc,
    exists_eq_left', exists_and_left]
  grind

theorem combined_ok {operator : Token} {left right n : Node} :
    combined operator left right c s = .ok n s' ↔ s = s' ∧
      ∃ o : BinaryOperator, operator.kind = o.symbol ∧
        .binary o left right ⟨left.span.start, right.span.finish⟩ = n := by
  simp only [combined, ← ofBinary_ok]
  cases Node.ofBinary operator.kind left right ⟨left.span.start, right.span.finish⟩ <;>
    simp [pure_ok, fail_ok, and_comm]

/-- How an operand is read, by the tokens it begins with. -/
@[mk_iff]
inductive OperandRun (signed p : Parser Node) (c : Context) (s : Progress) (n : Node)
    (s' : Progress) : Prop
  | signed : (c.tokens.get s.position).kind = Symbol.not ∨
      (c.tokens.get s.position).kind = Symbol.minus →
    signed c s = .ok n s' → OperandRun signed p c s n s'
  | parenthesised : (c.tokens.get s.position).kind = Symbol.leftParen →
    parenthesised p c s = .ok n s' → OperandRun signed p c s n s'
  | call : (c.tokens.get s.position).kind = .identifier →
    (c.tokens.get (s.position + 1)).kind = Symbol.leftParen →
    call p c s = .ok n s' → OperandRun signed p c s n s'
  | load : (c.tokens.get s.position).kind = .identifier →
    (c.tokens.get (s.position + 1)).kind ≠ Symbol.leftParen →
    load c s = .ok n s' → OperandRun signed p c s n s'
  | int : (c.tokens.get s.position).kind = .intLiteral →
    intLiteral c s = .ok n s' → OperandRun signed p c s n s'
  | double : (c.tokens.get s.position).kind = .doubleLiteral →
    doubleLiteral c s = .ok n s' → OperandRun signed p c s n s'
  | string : (c.tokens.get s.position).kind = .stringLiteral →
    stringLiteral c s = .ok n s' → OperandRun signed p c s n s'

theorem operand_ok {signed p : Parser Node} {n : Node} :
    operand signed p c s = .ok n s' ↔ OperandRun signed p c s n s' := by
  simp only [operandRun_iff, operand, bind_ok, peek_ok, and_assoc, exists_eq_left',
    exists_and_left, Nat.add_zero]
  generalize (c.tokens.get s.position).kind = k
  cases k with
  | symbol x =>
    cases x <;> simp [unexpected, failHere, bind_ok, fail_ok]
  | identifier => simp [bind_ok, peek_ok, ite_ok, and_assoc]
  | _ => simp [unexpected, failHere, bind_ok, fail_ok]

theorem climb_zero_ok {right : Nat → Parser Node} {least : Nat} {left n : Node} :
    climb right least 0 left c s = .ok n s' ↔ left = n ∧ s = s' :=
  pure_ok (c := c)

theorem climb_succ_ok {right : Nat → Parser Node} {least bound : Nat} {left n : Node} :
    climb right least (bound + 1) left c s = .ok n s' ↔
      ((c.tokens.get s.position).kind.isBinary ∧
          least ≤ (c.tokens.get s.position).kind.precedence) ∧
        (∃ other t, right ((c.tokens.get s.position).kind.precedence + 1) c
            { s with position := s.position + 1 } = .ok other t ∧
          ∃ o : BinaryOperator, (c.tokens.get s.position).kind = o.symbol ∧
            climb right least bound
              (.binary o left other ⟨left.span.start, other.span.finish⟩) c t = .ok n s') ∨
      ¬ ((c.tokens.get s.position).kind.isBinary ∧
          least ≤ (c.tokens.get s.position).kind.precedence) ∧ left = n ∧ s = s' := by
  simp only [climb, bind_ok, peek_ok, ite_ok, advance_ok, combined_ok, pure_ok, and_assoc,
    exists_eq_left', exists_and_left, Nat.add_zero, exists_exists_and_eq_and]

/-- Nothing is added to a left operand in front of what does not bind tightly enough. -/
theorem climb_stop {right : Nat → Parser Node} {least bound : Nat} {left : Node}
    (h : ¬ ((c.tokens.get s.position).kind.isBinary ∧
      least ≤ (c.tokens.get s.position).kind.precedence)) :
    climb right least bound left c s = .ok left s := by
  cases bound with
  | zero => exact climb_zero_ok.2 ⟨rfl, rfl⟩
  | succ bound => exact climb_succ_ok.2 (.inr ⟨h, rfl, rfl⟩)

theorem chain_ok {p : Parser Node} {right : Nat → Parser Node} {least : Nat} {n : Node} :
    chain p right least c s = .ok n s' ↔ ∃ left t, p c s = .ok left t ∧
      climb right least (c.tokens.size - t.position) left c t = .ok n s' := by
  simp only [chain, bind_ok, remaining_ok, and_assoc, exists_eq_left', exists_and_left]

theorem variableDeclaration_ok {p : Parser Node} {n : Node} :
    variableDeclaration p c s = .ok n s' ↔ ∃ type,
      ValueType.ofKind? (c.tokens.get s.position).kind = some type ∧ type ≠ .void ∧
      (c.tokens.get (s.position + 1)).kind = .identifier ∧
      (c.tokens.get (s.position + 1 + 1)).kind = Symbol.assign ∧
      ∃ value t, p c { s with position := s.position + 1 + 1 + 1 } = .ok value t ∧
      ∃ x, (∃ a, t.arena.defineVariable c.scope
            ⟨type, (c.tokens.get (s.position + 1)).text, c.scope,
              (c.tokens.get (s.position + 1)).location⟩ false = .ok (x, a) ∧
          { t with arena := a } = s') ∧
        .declare x value ⟨(c.tokens.get s.position).location, value.span.finish⟩ = n := by
  simp only [variableDeclaration, identifier, symbol, bind_ok, advance_ok, typeOf_ok, expect_ok,
    define_ok, pure_ok, and_true, and_assoc, exists_eq_left', exists_and_left,
    exists_eq_right_right]

theorem assignment_ok {p : Parser Node} {n : Node} :
    assignment p c s = .ok n s' ↔ (c.tokens.get s.position).kind = .identifier ∧
      ∃ x, s.arena.lookupVariable? c.scope (c.tokens.get s.position).text = some x ∧
      ∃ value, p c { s with position := s.position + 1 + 1 } = .ok value s' ∧
      ∃ o : AssignOperator, (c.tokens.get (s.position + 1)).kind = o.symbol ∧
        .assign x o value ⟨(c.tokens.get s.position).location, value.span.finish⟩ = n := by
  simp only [assignment, identifier, bind_ok, advance_ok, resolve_ok, expect_ok, and_assoc,
    exists_eq_left', exists_and_left, ← ofAssign_ok]
  refine and_congr_right fun _ => exists_congr fun x => and_congr_right fun _ =>
    exists_congr fun value => ?_
  cases Node.ofAssign x (c.tokens.get (s.position + 1)).kind value
      ⟨(c.tokens.get s.position).location, value.span.finish⟩ <;>
    simp [pure_ok, fail_ok]

theorem printed_ok {p : Parser Node} {n : Node} :
    printed p c s = .ok n s' ↔ (c.tokens.get s.position).kind = Keyword.printKw ∧
      (c.tokens.get (s.position + 1)).kind = Symbol.leftParen ∧
      ∃ r, arguments p c { s with position := s.position + 1 + 1 } = .ok r s' ∧
        .print r.1 ⟨(c.tokens.get s.position).location, r.2⟩ = n := by
  simp only [printed, keyword, symbol, bind_ok, expect_ok, pure_ok, and_assoc, exists_eq_left',
    exists_and_left, exists_eq_right_right]

theorem returned_ok {p : Parser Node} {n : Node} :
    returned p c s = .ok n s' ↔ (c.tokens.get s.position).kind = Keyword.returnKw ∧
      ((c.tokens.get (s.position + 1)).kind = Symbol.semicolon ∧
          .giveBack none (.single (c.tokens.get s.position).location) = n ∧
          { s with position := s.position + 1 } = s' ∨
        (c.tokens.get (s.position + 1)).kind ≠ Symbol.semicolon ∧
          ∃ value, p c { s with position := s.position + 1 } = .ok value s' ∧
            .giveBack (some value)
              ⟨(c.tokens.get s.position).location, value.span.finish⟩ = n) := by
  simp only [returned, keyword, bind_ok, expect_ok, peek_ok, ite_ok, pure_ok, and_assoc,
    exists_eq_left', exists_and_left, exists_eq_right_right, Nat.add_zero]

theorem condition_ok {p : Parser Node} {n : Node} :
    condition p c s = .ok n s' ↔ (c.tokens.get s.position).kind = Symbol.leftParen ∧
      ∃ t, p c { s with position := s.position + 1 } = .ok n t ∧
        (c.tokens.get t.position).kind = Symbol.rightParen ∧
        { t with position := t.position + 1 } = s' := by
  simp only [condition, symbol, bind_ok, expect_ok, pure_ok, and_assoc, exists_eq_left',
    exists_and_left]
  grind

theorem branch_ok {q : Parser Block} {p : Parser Node} {n : Node} :
    branch q p c s = .ok n s' ↔ (c.tokens.get s.position).kind = Keyword.ifKw ∧
      ∃ test t, condition p c { s with position := s.position + 1 } = .ok test t ∧
      ∃ thenBody u, q c t = .ok thenBody u ∧
        ((c.tokens.get u.position).kind = Keyword.elseKw ∧
            (∃ elseBody, q c { u with position := u.position + 1 } = .ok elseBody s' ∧
              .branch test thenBody (some elseBody)
                ⟨(c.tokens.get s.position).location, elseBody.span.finish⟩ = n) ∨
          (c.tokens.get u.position).kind ≠ Keyword.elseKw ∧
            .branch test thenBody none
              ⟨(c.tokens.get s.position).location, thenBody.span.finish⟩ = n ∧ u = s') := by
  simp only [branch, keyword, bind_ok, expect_ok, accept_ok, ite_ok, pure_ok, and_assoc,
    exists_eq_left', exists_and_left, exists_eq_right_right]
  refine and_congr_right fun _ => exists_congr fun test => exists_congr fun t =>
    and_congr_right fun _ => exists_congr fun thenBody => exists_congr fun u =>
    and_congr_right fun _ => ?_
  by_cases h : (c.tokens.get u.position).kind = Keyword.elseKw <;> simp [h]

theorem whileLoop_ok {q : Parser Block} {p : Parser Node} {n : Node} :
    whileLoop q p c s = .ok n s' ↔ (c.tokens.get s.position).kind = Keyword.whileKw ∧
      ∃ test t, condition p c { s with position := s.position + 1 } = .ok test t ∧
      ∃ body, q c t = .ok body s' ∧
        .whileLoop test body ⟨(c.tokens.get s.position).location, body.span.finish⟩ = n := by
  simp only [whileLoop, keyword, bind_ok, expect_ok, pure_ok, and_assoc, exists_eq_left',
    exists_and_left, exists_eq_right_right]

theorem forLoop_ok {q : Parser Block} {p : Parser Node} {n : Node} :
    forLoop q p c s = .ok n s' ↔ (c.tokens.get s.position).kind = Keyword.forKw ∧
      (c.tokens.get (s.position + 1)).kind = Symbol.leftParen ∧
      (c.tokens.get (s.position + 1 + 1)).kind = .identifier ∧
      ∃ x, s.arena.lookupVariable? c.scope (c.tokens.get (s.position + 1 + 1)).text = some x ∧
      (c.tokens.get (s.position + 1 + 1 + 1)).kind = Keyword.inKw ∧
      ∃ range t, p c { s with position := s.position + 1 + 1 + 1 + 1 } = .ok range t ∧
      (c.tokens.get t.position).kind = Symbol.rightParen ∧
      ∃ body, q c { t with position := t.position + 1 } = .ok body s' ∧
        .forLoop x range body ⟨(c.tokens.get s.position).location, body.span.finish⟩ = n := by
  simp only [forLoop, keyword, symbol, identifier, bind_ok, expect_ok, resolve_ok, pure_ok,
    and_assoc, exists_eq_left', exists_and_left, exists_eq_right_right]

theorem parameter_ok {r : ValueType × Token} :
    parameter c s = .ok r s' ↔ ∃ type,
      ValueType.ofKind? (c.tokens.get s.position).kind = some type ∧ type ≠ .void ∧
      (c.tokens.get (s.position + 1)).kind = .identifier ∧
      ∃ u, separator c { s with position := s.position + 1 + 1 } = .ok u s' ∧
        (type, c.tokens.get (s.position + 1)) = r := by
  simp only [parameter, identifier, bind_ok, advance_ok, typeOf_ok, expect_ok, pure_ok, and_true,
    and_assoc, exists_eq_left', exists_and_left, exists_eq_right_right, ne_eq]

theorem nativeBody_ok {signature : Signature} {b : Block} :
    nativeBody signature c s = .ok b s' ↔
      (c.tokens.get s.position).kind = Keyword.nativeKw ∧
      (c.tokens.get (s.position + 1)).kind = .stringLiteral ∧
      (c.tokens.get (s.position + 1 + 1)).kind = Symbol.semicolon ∧
      ⟨(s.arena.pushScope (some c.scope)).1,
        [.nativeCall signature (c.tokens.get (s.position + 1)).text
          ⟨(c.tokens.get s.position).location, (c.tokens.get (s.position + 1 + 1)).location⟩],
        ⟨(c.tokens.get s.position).location, (c.tokens.get (s.position + 1 + 1)).location⟩⟩ = b ∧
      ⟨s.position + 1 + 1 + 1, (s.arena.pushScope (some c.scope)).2⟩ = s' := by
  simp only [nativeBody, keyword, symbol, inNewScope_ok, bind_ok, expect_ok, scope_ok, pure_ok,
    and_assoc, exists_eq_left', exists_and_left]

theorem defineFunction_ok {owner : ScopeId} {signature : Signature} {name start : Token}
    {f : FunctionId} :
    defineFunction owner signature name start c s = .ok f s' ↔ ∃ a,
      s.arena.defineFunction owner
          ⟨signature, owner, c.scope, ⟨c.scope, [], .single start.location⟩,
            .single start.location⟩ false = .ok (f, a) ∧
        { s with arena := a } = s' := by
  simp only [defineFunction, bind_ok, scope_ok, get_ok, and_assoc, exists_eq_left',
    exists_and_left]
  cases s.arena.defineFunction owner
      ⟨signature, owner, c.scope, ⟨c.scope, [], .single start.location⟩,
        .single start.location⟩ false with
  | ok r =>
    rcases r with ⟨g, a⟩
    simp only [bind_ok, modify_ok, pure_ok, Except.ok.injEq, Prod.mk.injEq, and_assoc,
      exists_eq_left', exists_and_left, exists_const]
  | error g => simp only [fail_ok, reduceCtorEq, false_and, exists_false]

theorem defineAll_nil_ok {u : Unit} : defineAll [] c s = .ok u s' ↔ s = s' := by
  simp [defineAll, pure_ok]

theorem defineAll_cons_ok {type : ValueType} {name : Token} {rest : List (ValueType × Token)}
    {u : Unit} :
    defineAll ((type, name) :: rest) c s = .ok u s' ↔
      ∃ x t, define type name c s = .ok x t ∧ defineAll rest c t = .ok u s' := by
  rw [defineAll, bind_ok]

theorem functionDeclaration_ok {q : Parser Block} {f : FunctionId} :
    functionDeclaration q c s = .ok f s' ↔
      (c.tokens.get s.position).kind = Keyword.functionKw ∧
      ∃ returns, ValueType.ofKind? (c.tokens.get (s.position + 1)).kind = some returns ∧
      (c.tokens.get (s.position + 1 + 1)).kind = .identifier ∧
      (c.tokens.get (s.position + 1 + 1 + 1)).kind = Symbol.leftParen ∧
      ∃ ps t, many parenClose (do return [← parameter]) c
          { s with position := s.position + 1 + 1 + 1 + 1 } = .ok ps t ∧
      ∃ u v, defineAll ps.1 { c with scope := (t.arena.pushScope (some c.scope)).1 }
          { t with arena := (t.arena.pushScope (some c.scope)).2 } = .ok u v ∧
      ∃ g w, defineFunction c.scope
          (signatureOf returns (c.tokens.get (s.position + 1 + 1)).text ps.1)
          (c.tokens.get (s.position + 1 + 1)) (c.tokens.get s.position)
          { c with scope := (t.arena.pushScope (some c.scope)).1 } v = .ok g w ∧
        ((c.tokens.get w.position).kind = Keyword.nativeKw ∧
            (∃ b x, nativeBody (signatureOf returns (c.tokens.get (s.position + 1 + 1)).text ps.1)
                { c with scope := (t.arena.pushScope (some c.scope)).1 } w = .ok b x ∧ g = f ∧
              ⟨x.position, x.arena.setBody g b
                ⟨(c.tokens.get s.position).location, b.span.finish⟩⟩ = s') ∨
          (c.tokens.get w.position).kind ≠ Keyword.nativeKw ∧
            ∃ b x, q { c with scope := (t.arena.pushScope (some c.scope)).1 } w = .ok b x ∧
              g = f ∧
              ⟨x.position, x.arena.setBody g b
                ⟨(c.tokens.get s.position).location, b.span.finish⟩⟩ = s') := by
  simp only [functionDeclaration, keyword, identifier, symbol, inNewScope_ok, bind_ok, expect_ok,
    advance_ok, typeOf_ok, scope_ok, peek_ok, ite_ok, modify_ok, pure_ok, and_assoc,
    exists_eq_left', exists_and_left, exists_const, Bool.true_eq_false, and_false,
    not_false_eq_true, true_and, Nat.add_zero, signatureOf, ne_eq]

theorem terminated_ok {p : Parser Node} {o : Option Node} :
    terminated p c s = .ok o s' ↔ ∃ n t, p c s = .ok n t ∧
      (c.tokens.get t.position).kind = Symbol.semicolon ∧ some n = o ∧
      { t with position := t.position + 1 } = s' := by
  simp only [terminated, symbol, bind_ok, expect_ok, pure_ok, and_assoc, exists_eq_left',
    exists_and_left]

/-- How a statement is read, by the tokens it begins with. -/
@[mk_iff]
inductive StatementRun (q : Parser Block) (p : Parser Node) (c : Context) (s s' : Progress) :
    Option Node → Prop
  | function {f} : (c.tokens.get s.position).kind = Keyword.functionKw →
    functionDeclaration q c s = .ok f s' → StatementRun q p c s s' none
  | block {b} : (c.tokens.get s.position).kind = Symbol.leftBrace →
    q c s = .ok b s' → StatementRun q p c s s' (some (.block b))
  | branch {n} : (c.tokens.get s.position).kind = Keyword.ifKw →
    branch q p c s = .ok n s' → StatementRun q p c s s' (some n)
  | whileLoop {n} : (c.tokens.get s.position).kind = Keyword.whileKw →
    whileLoop q p c s = .ok n s' → StatementRun q p c s s' (some n)
  | forLoop {n} : (c.tokens.get s.position).kind = Keyword.forKw →
    forLoop q p c s = .ok n s' → StatementRun q p c s s' (some n)
  | declare {o} : (c.tokens.get s.position).kind.isTypeName →
    terminated (variableDeclaration p) c s = .ok o s' → StatementRun q p c s s' o
  | print {o} : (c.tokens.get s.position).kind = Keyword.printKw →
    terminated (printed p) c s = .ok o s' → StatementRun q p c s s' o
  | giveBack {o} : (c.tokens.get s.position).kind = Keyword.returnKw →
    terminated (returned p) c s = .ok o s' → StatementRun q p c s s' o
  | assign {o} : (c.tokens.get s.position).kind = .identifier →
    (c.tokens.get (s.position + 1)).kind.isAssignment →
    terminated (assignment p) c s = .ok o s' → StatementRun q p c s s' o
  | expression {o} : ¬ (c.tokens.get s.position).kind.isKeyword →
    (c.tokens.get s.position).kind ≠ Symbol.leftBrace →
    ¬ ((c.tokens.get s.position).kind = .identifier ∧
      (c.tokens.get (s.position + 1)).kind.isAssignment) →
    terminated p c s = .ok o s' → StatementRun q p c s s' o

theorem statement_ok {q : Parser Block} {p : Parser Node} {o : Option Node} :
    statement q p c s = .ok o s' ↔ StatementRun q p c s s' o := by
  simp only [statementRun_iff, statement, bind_ok, peek_ok, and_assoc, exists_eq_left',
    exists_and_left, Nat.add_zero]
  generalize (c.tokens.get s.position).kind = k
  cases k with
  | symbol x =>
    cases x <;> simp [TokenKind.isKeyword, TokenKind.isTypeName, map_ok, eq_comm (a := o)]
  | keyword x =>
    cases x <;> simp [TokenKind.isKeyword, TokenKind.isTypeName, Keyword.isTypeName, map_ok,
      bind_ok, unexpected, failHere, fail_ok, eq_comm (a := o)]
  | identifier =>
    simp [TokenKind.isKeyword, TokenKind.isTypeName, bind_ok, peek_ok, ite_ok, and_assoc]
  | _ => simp [TokenKind.isKeyword, TokenKind.isTypeName]

theorem statementItem_ok {p : Parser (Option Node)} {ns : List Node} :
    statementItem p c s = .ok ns s' ↔
      (c.tokens.get s.position).kind = Symbol.semicolon ∧ [] = ns ∧
          { s with position := s.position + 1 } = s' ∨
        (c.tokens.get s.position).kind ≠ Symbol.semicolon ∧
          ∃ o, p c s = .ok o s' ∧ o.toList = ns := by
  simp only [statementItem, bind_ok, accept_ok, ite_ok, pure_ok, exists_eq_right_right]
  by_cases h : (c.tokens.get s.position).kind = Symbol.semicolon <;> simp [h]

theorem braceClose_ok {o : Option Location} :
    braceClose c s = .ok o s' ↔
      (c.tokens.get s.position).kind = Symbol.rightBrace ∧
          some (c.tokens.get s.position).location = o ∧
          { s with position := s.position + 1 } = s' ∨
        ((c.tokens.get s.position).kind ≠ Symbol.rightBrace ∧
            (c.tokens.get s.position).kind ≠ .endOfInput) ∧ none = o ∧ s = s' := by
  simp only [braceClose, bind_ok, peek_ok, and_assoc, exists_eq_left', exists_and_left,
    Nat.add_zero]
  generalize (c.tokens.get s.position).kind = k
  cases k with
  | symbol x => cases x <;> simp [map_ok, advance_ok, pure_ok, and_comm]
  | _ => simp [failHere, bind_ok, fail_ok, pure_ok]

theorem braced_ok {p : Parser (Option Node)} {b : Block} :
    braced p c s = .ok b s' ↔ (c.tokens.get s.position).kind = Symbol.leftBrace ∧
      ∃ r, many braceClose (statementItem p)
          { c with scope := (s.arena.pushScope (some c.scope)).1 }
          ⟨s.position + 1, (s.arena.pushScope (some c.scope)).2⟩ = .ok r s' ∧
        ⟨(s.arena.pushScope (some c.scope)).1, r.1,
          ⟨(c.tokens.get s.position).location, r.2⟩⟩ = b := by
  simp only [braced, symbol, inNewScope_ok, bind_ok, expect_ok, scope_ok, pure_ok, and_assoc,
    exists_eq_left', exists_and_left, exists_eq_right_right]

theorem endClose_ok {o : Option Location} :
    endClose c s = .ok o s' ↔
      (c.tokens.get s.position).kind = .endOfInput ∧
          some (c.tokens.get s.position).location = o ∧ s = s' ∨
        (c.tokens.get s.position).kind ≠ .endOfInput ∧ none = o ∧ s = s' := by
  simp only [endClose, bind_ok, peek_ok, ite_ok, here_ok, pure_ok, and_assoc, exists_eq_left',
    exists_and_left, Nat.add_zero, ne_eq]

theorem topLevel_ok {limit : Nat} {f : FunctionId} :
    topLevel limit c s = .ok f s' ↔ ∃ r t,
      many endClose (statementItem (statement (block limit) (expression limit 1))) c s =
          .ok r t ∧
        (t.arena.addFunction ⟨⟨.void, Program.topName, []⟩, c.scope, c.scope,
            ⟨c.scope, r.1, ⟨(c.tokens.get s.position).location, r.2⟩⟩,
            ⟨(c.tokens.get s.position).location, r.2⟩⟩).1 = f ∧
        ⟨t.position, (t.arena.addFunction ⟨⟨.void, Program.topName, []⟩, c.scope, c.scope,
            ⟨c.scope, r.1, ⟨(c.tokens.get s.position).location, r.2⟩⟩,
            ⟨(c.tokens.get s.position).location, r.2⟩⟩).2⟩ = s' := by
  simp only [topLevel, bind_ok, scope_ok, here_ok, get_ok, modify_ok, pure_ok, and_assoc,
    exists_eq_left', exists_and_left, exists_const]

end ScriptSyntax.Parser
