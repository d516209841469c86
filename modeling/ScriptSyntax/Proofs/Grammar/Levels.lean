import ScriptSyntax.Proofs.Grammar.Completeness

/-!
How many levels of nesting a parser takes: with so many it reads what it reads with more of them,
and with fewer it reads nothing. Put one behind the other, parsers take the greater number.
-/

namespace ScriptSyntax.Parser

variable {α β : Type}

/-- With `n` levels or more, and only with so many, `p` reads `a` from `t` up to `u`. -/
def Takes (p : Nat → Parser α) (n : Nat) (c : Context) (t : Progress) (a : α) (u : Progress) :
    Prop :=
  ∀ levels b v, p levels c t = .ok b v ↔ n ≤ levels ∧ b = a ∧ v = u

namespace Takes

variable {p q : Nat → Parser α} {c : Context} {t u v : Progress} {x : α} {y : β} {n m : Nat}

theorem run (h : Takes p n c t x u) {levels : Nat} (hl : n ≤ levels) : p levels c t = .ok x u :=
  (h levels x u).2 ⟨hl, rfl, rfl⟩

theorem unique (h : Takes p n c t x u) {levels : Nat} {x' : α} {u' : Progress}
    (h' : p levels c t = .ok x' u') : x = x' ∧ u = u' := by
  obtain ⟨-, hx, hu⟩ := (h levels x' u').1 h'
  exact ⟨hx.symm, hu.symm⟩

/-- A parser that reads the same whatever the levels. -/
theorem always (h : ∀ levels, p levels c t = .ok x u) : Takes p 0 c t x u := by
  intro levels x' u'
  rw [h, EStateM.Result.ok.injEq]
  constructor
  · rintro ⟨rfl, rfl⟩
    exact ⟨Nat.zero_le _, rfl, rfl⟩
  · rintro ⟨-, rfl, rfl⟩
    exact ⟨rfl, rfl⟩

theorem congr (h : Takes q n c t x u) (hp : ∀ levels, p levels c t = q levels c t) :
    Takes p n c t x u := by
  intro levels x' u'
  rw [hp, h]

theorem bind {f : Nat → α → Parser β} (h : Takes p n c t x u)
    (hf : Takes (fun levels => f levels x) m c u y v) :
    Takes (fun levels => p levels >>= f levels) (max n m) c t y v := by
  intro levels y' v'
  rw [bind_ok]
  constructor
  · rintro ⟨x', u', hx, hy⟩
    obtain ⟨hn, rfl, rfl⟩ := (h ..).1 hx
    obtain ⟨hm, rfl, rfl⟩ := (hf ..).1 hy
    exact ⟨Nat.max_le.2 ⟨hn, hm⟩, rfl, rfl⟩
  · rintro ⟨hl, rfl, rfl⟩
    obtain ⟨hn, hm⟩ := Nat.max_le.1 hl
    exact ⟨x, u, h.run hn, hf.run hm⟩

/-- Behind a step that does not depend on the levels. -/
theorem before {p : Parser α} {f : Nat → α → Parser β} (h : p c t = .ok x u)
    (hf : Takes (fun levels => f levels x) m c u y v) :
    Takes (fun levels => p >>= f levels) m c t y v := by
  have hbind := (always (p := fun _ => p) fun _ => h).bind hf
  rwa [Nat.zero_max] at hbind

/-- In front of a step that does not depend on the levels. -/
theorem after {f : Nat → α → Parser β} (h : Takes p n c t x u)
    (hf : ∀ levels, f levels x c u = .ok y v) :
    Takes (fun levels => p levels >>= f levels) n c t y v := by
  have hbind := h.bind (always hf)
  rwa [Nat.max_zero] at hbind

theorem returns (h : Takes p n c t x u) (f : α → β) :
    Takes (fun levels => do return f (← p levels)) n c t (f x) u := h.after fun _ => rfl

/-- A parser that opens a level. -/
theorem deeper (h : Takes (fun levels => p (levels + 1)) n c t x u) (hp : p 0 = tooDeep) :
    Takes p (n + 1) c t x u := by
  intro levels x' u'
  cases levels with
  | zero =>
    rw [hp]
    exact ⟨nofun, fun h => absurd h.1 (Nat.not_succ_le_zero n)⟩
  | succ levels => rw [h, Nat.add_le_add_iff_right]

theorem inNewScope (h : Takes p n { c with scope := (t.arena.pushScope (some c.scope)).1 }
      { t with arena := (t.arena.pushScope (some c.scope)).2 } x u) :
    Takes (fun levels => Parser.inNewScope (p levels)) n c t x u := fun levels => h levels

section Lists

variable {close : Parser (Option β)} {item : Nat → Parser (List α)}
  {items rest : List α} {finish : β}

theorem many_nil (h : close c t = .ok (some finish) u) (bound : Nat) :
    Takes (fun levels => manyFrom close (item levels) bound) 0 c t ([], finish) u := by
  refine always fun levels => ?_
  cases bound <;> exact closeOr_ok.2 (.inl ⟨finish, h, rfl⟩)

theorem many_cons {bound : Nat} (hc : close c t = .ok none t) (h : Takes item n c t items u)
    (hm : Takes (fun levels => manyFrom close (item levels) bound) m c u (rest, finish) v) :
    Takes (fun levels => manyFrom close (item levels) (bound + 1)) (max n m) c t
      (items ++ rest, finish) v :=
  .before hc (h.bind (hm.after fun _ => rfl))

theorem many {r : List α × β} (h : Takes (fun levels =>
      manyFrom close (item levels) (c.tokens.size - t.position)) n c t r u) :
    Takes (fun levels => Parser.many close (item levels)) n c t r u := .before rfl h

end Lists

end Takes

variable {T : TokenList} {limit i j k l m m' n : Nat} {s : ScopeId} {a b d : Arena}

section Expressions

variable {p : Nat → Parser Node} {x y : Node}

/-- An operator in front of an operand opens a level. -/
def signed : Nat → Parser Node
  | 0 => tooDeep
  | levels + 1 => applied (unary levels)

theorem unary_eq (levels : Nat) :
    unary levels = operand (signed levels) (expression levels 1) := by
  cases levels with
  | zero => rw [unary, signed, expression]
  | succ levels => rw [unary_succ, signed]

/-- An operand without operands inside. -/
theorem takes_plain (h : ∀ p q, OperandRun p q ⟨T, limit, s⟩ ⟨i, a⟩ x ⟨j, b⟩) :
    Takes unary 0 ⟨T, limit, s⟩ ⟨i, a⟩ x ⟨j, b⟩ :=
  .always fun levels => by
    rw [unary_eq]
    exact operand_ok.2 (h _ _)

theorem takes_parenthesised (hk : (T.get i).kind = Symbol.leftParen)
    (h : Takes (fun levels => expression levels 1) n ⟨T, limit, s⟩ ⟨i + 1, a⟩ x ⟨j, b⟩)
    (hj : (T.get j).kind = Symbol.rightParen) :
    Takes unary n ⟨T, limit, s⟩ ⟨i, a⟩ x ⟨j + 1, b⟩ := by
  have hinner : Takes (fun levels => parenthesised (expression levels 1)) n ⟨T, limit, s⟩ ⟨i, a⟩ x
      ⟨j + 1, b⟩ :=
    .before (advance_run ..) (h.after fun _ =>
      bind_ok.2 ⟨_, _, expect_ok.2 ⟨hj, rfl, rfl⟩, pure_ok.2 ⟨rfl, rfl⟩⟩)
  refine hinner.congr fun levels => ?_
  simp only [unary_eq, operand, bind_run, peek_run, Nat.add_zero, hk]

theorem takes_call {r : List Node × Location} (hk : (T.get i).kind = .identifier)
    (hp : (T.get (i + 1)).kind = Symbol.leftParen)
    (h : Takes (fun levels => arguments (expression levels 1)) n ⟨T, limit, s⟩ ⟨i + 2, a⟩ r
      ⟨j, b⟩) :
    Takes unary n ⟨T, limit, s⟩ ⟨i, a⟩ (.call (T.get i).text
      (a.lookupFunction? s (T.get i).text) r.1 ⟨(T.get i).location, r.2⟩) ⟨j, b⟩ := by
  have hcall : Takes (fun levels => call (expression levels 1)) n ⟨T, limit, s⟩ ⟨i, a⟩
      (.call (T.get i).text (a.lookupFunction? s (T.get i).text) r.1 ⟨(T.get i).location, r.2⟩)
      ⟨j, b⟩ :=
    .before (expect_ok.2 ⟨hk, rfl, rfl⟩) <| .before (expect_ok.2 ⟨hp, rfl, rfl⟩) <|
      .before (get_ok.2 ⟨rfl, rfl⟩) <| .before (scope_ok.2 ⟨rfl, rfl⟩) <| h.after fun _ => rfl
  refine hcall.congr fun levels => ?_
  simp only [unary_eq, operand, bind_run, peek_run, Nat.add_zero, hk, hp, if_true]

theorem takes_applied {o : UnaryOperator} (hk : (T.get i).kind = o.symbol)
    (h : Takes unary n ⟨T, limit, s⟩ ⟨i + 1, a⟩ x ⟨j, b⟩) :
    Takes unary (n + 1) ⟨T, limit, s⟩ ⟨i, a⟩
      (.unary o x ⟨(T.get i).location, x.span.finish⟩) ⟨j, b⟩ := by
  have happlied : Takes signed (n + 1) ⟨T, limit, s⟩ ⟨i, a⟩
      (.unary o x ⟨(T.get i).location, x.span.finish⟩) ⟨j, b⟩ := by
    refine .deeper (.before (advance_run ..) (h.after fun _ => ?_)) rfl
    rw [ofUnary_ok.2 ⟨o, hk, rfl⟩]
    rfl
  refine happlied.congr fun levels => ?_
  simp only [unary_eq, operand, bind_run, peek_run, Nat.add_zero, hk]
  cases o <;> rfl

theorem takes_expression {least : Nat} (h : Takes unary n ⟨T, limit, s⟩ ⟨i, a⟩ x ⟨j, a⟩)
    (hc : Takes (fun levels => climb (expression levels) least (T.size - j) x) m ⟨T, limit, s⟩
      ⟨j, a⟩ y ⟨k, a⟩) :
    Takes (fun levels => expression levels least) (max n m + 1) ⟨T, limit, s⟩ ⟨i, a⟩ y ⟨k, a⟩ := by
  refine .deeper ?_ rfl
  simp only [expression]
  exact h.bind (.before rfl hc)

theorem climb_done {right : Nat → Parser Node} {least bound : Nat}
    (h : (T.get j).kind.isBinary = false) :
    climb right least bound x ⟨T, limit, s⟩ ⟨j, a⟩ = .ok x ⟨j, a⟩ :=
  climb_stop fun hk => absurd hk.1 (by rw [h]; exact nofun)

/-- An operator and its right operand, in front of what is no operator. -/
theorem takes_climb {o : BinaryOperator} {least : Nat} (ho : (T.get j).kind = o.symbol)
    (hleast : least ≤ o.precedence)
    (h : Takes (fun levels => expression levels (o.precedence + 1)) n ⟨T, limit, s⟩ ⟨j + 1, a⟩ y
      ⟨k, a⟩) (hk : (T.get k).kind.isBinary = false) :
    Takes (fun levels => climb (expression levels) least (T.size - j) x) n ⟨T, limit, s⟩ ⟨j, a⟩
      (.binary o x y ⟨x.span.start, y.span.finish⟩) ⟨k, a⟩ := by
  have hlt := TokenList.lt_size_of_symbol ho
  obtain ⟨bound, hbound⟩ : ∃ bound, T.size - j = bound + 1 := ⟨T.size - j - 1, by omega⟩
  have hmore : (T.get j).kind.isBinary ∧ least ≤ (T.get j).kind.precedence := by
    rw [ho]
    exact ⟨o.isBinary, hleast⟩
  rw [hbound]
  simp only [climb]
  -- The operator is looked at, found to bind tightly enough, and taken.
  refine .before (peek_run ..) ?_
  simp only [Nat.add_zero, if_pos hmore]
  refine .before (advance_run ..) ?_
  rw [ho]
  exact h.after fun _ => bind_ok.2 ⟨_, _, combined_ok.2 ⟨rfl, o, ho, rfl⟩, climb_done hk⟩

end Expressions

section Statements

variable {p : Nat → Parser Node} {x : Node}

theorem takes_terminated (h : Takes p n ⟨T, limit, s⟩ ⟨i, a⟩ x ⟨j, b⟩)
    (hj : (T.get j).kind = Symbol.semicolon) :
    Takes (fun levels => terminated (p levels)) n ⟨T, limit, s⟩ ⟨i, a⟩ (some x) ⟨j + 1, b⟩ :=
  h.after fun _ => bind_ok.2 ⟨_, _, expect_ok.2 ⟨hj, rfl, rfl⟩, pure_ok.2 ⟨rfl, rfl⟩⟩

theorem takes_condition (hk : (T.get i).kind = Symbol.leftParen)
    (h : Takes p n ⟨T, limit, s⟩ ⟨i + 1, a⟩ x ⟨j, b⟩)
    (hj : (T.get j).kind = Symbol.rightParen) :
    Takes (fun levels => condition (p levels)) n ⟨T, limit, s⟩ ⟨i, a⟩ x ⟨j + 1, b⟩ :=
  .before (expect_ok.2 ⟨hk, rfl, rfl⟩) <| h.after fun _ =>
    bind_ok.2 ⟨_, _, expect_ok.2 ⟨hj, rfl, rfl⟩, pure_ok.2 ⟨rfl, rfl⟩⟩

theorem statement_of_expression {q : Parser Block} {p : Parser Node} {c : Context} {t : Progress}
    (hk : ¬ (c.tokens.get t.position).kind.isKeyword)
    (hb : (c.tokens.get t.position).kind ≠ Symbol.leftBrace)
    (hi : ¬ ((c.tokens.get t.position).kind = .identifier ∧
      (c.tokens.get (t.position + 1)).kind.isAssignment)) :
    statement q p c t = terminated p c t := by
  rw [statement, bind_run, peek_run, Nat.add_zero]
  revert hk hb hi
  cases (c.tokens.get t.position).kind with
  | symbol x => cases x <;> exact fun _ hb _ => by first | rfl | exact absurd rfl hb
  | keyword _ => exact fun hk => absurd rfl hk
  | identifier =>
    intro _ _ hi
    dsimp only
    rw [bind_run, peek_run]
    dsimp only
    rw [if_neg fun h => hi ⟨rfl, h⟩]
  | _ => exact fun _ _ _ => rfl

theorem statement_of_type {q : Parser Block} {p : Parser Node} {c : Context} {t : Progress}
    {v : ValueType} (hv : ValueType.ofKind? (c.tokens.get t.position).kind = some v) :
    statement q p c t = terminated (variableDeclaration p) c t := by
  rw [statement, bind_run, peek_run, Nat.add_zero]
  revert hv
  cases (c.tokens.get t.position).kind with
  | keyword k =>
    intro hv
    cases k <;> first | rfl | cases hv
  | _ =>
    intro hv
    cases hv

theorem takes_variableDeclaration {v : ValueType} {z : VariableId}
    (hv : ValueType.ofKind? (T.get i).kind = some v) (hvoid : v ≠ .void)
    (hi : (T.get (i + 1)).kind = .identifier) (ha : (T.get (i + 2)).kind = Symbol.assign)
    (h : Takes p n ⟨T, limit, s⟩ ⟨i + 3, a⟩ x ⟨j, b⟩)
    (hd : b.defineVariable s ⟨v, (T.get (i + 1)).text, s, (T.get (i + 1)).location⟩ false =
      .ok (z, d)) :
    Takes (fun levels => variableDeclaration (p levels)) n ⟨T, limit, s⟩ ⟨i, a⟩
      (.declare z x ⟨(T.get i).location, x.span.finish⟩) ⟨j, d⟩ :=
  .before (advance_run ..) <| .before (typeOf_ok.2 ⟨hv, fun h => hvoid h.1, rfl⟩) <|
    .before (expect_ok.2 ⟨hi, rfl, rfl⟩) <| .before (expect_ok.2 ⟨ha, rfl, rfl⟩) <|
      h.after fun _ => bind_ok.2 ⟨_, _, define_ok.2 ⟨d, hd, rfl⟩, pure_ok.2 ⟨rfl, rfl⟩⟩

theorem takes_assignment {z : VariableId} {o : AssignOperator}
    (hk : (T.get i).kind = .identifier) (hz : a.lookupVariable? s (T.get i).text = some z)
    (ho : (T.get (i + 1)).kind = o.symbol)
    (h : Takes p n ⟨T, limit, s⟩ ⟨i + 2, a⟩ x ⟨j, b⟩) :
    Takes (fun levels => assignment (p levels)) n ⟨T, limit, s⟩ ⟨i, a⟩
      (.assign z o x ⟨(T.get i).location, x.span.finish⟩) ⟨j, b⟩ := by
  refine .before (expect_ok.2 ⟨hk, rfl, rfl⟩) <| .before (resolve_ok.2 ⟨hz, rfl⟩) <|
    .before (advance_run ..) <| h.after fun _ => ?_
  rw [ofAssign_ok.2 ⟨o, ho, rfl⟩]
  rfl

theorem takes_printed {q : Nat → Parser Node} {r : List Node × Location}
    (hk : (T.get i).kind = Keyword.printKw) (hp : (T.get (i + 1)).kind = Symbol.leftParen)
    (h : Takes (fun levels => arguments (q levels)) n ⟨T, limit, s⟩ ⟨i + 2, a⟩ r ⟨j, b⟩) :
    Takes (fun levels => printed (q levels)) n ⟨T, limit, s⟩ ⟨i, a⟩
      (.print r.1 ⟨(T.get i).location, r.2⟩) ⟨j, b⟩ :=
  .before (expect_ok.2 ⟨hk, rfl, rfl⟩) <| .before (expect_ok.2 ⟨hp, rfl, rfl⟩) <|
    h.after fun _ => rfl

theorem takes_returned (hk : (T.get i).kind = Keyword.returnKw)
    (hn : (T.get (i + 1)).kind ≠ Symbol.semicolon)
    (h : Takes p n ⟨T, limit, s⟩ ⟨i + 1, a⟩ x ⟨j, b⟩) :
    Takes (fun levels => returned (p levels)) n ⟨T, limit, s⟩ ⟨i, a⟩
      (.giveBack (some x) ⟨(T.get i).location, x.span.finish⟩) ⟨j, b⟩ := by
  refine .before (expect_ok.2 ⟨hk, rfl, rfl⟩) <| .before (peek_run ..) ?_
  simp only [Nat.add_zero, if_neg hn]
  exact h.after fun _ => rfl

section Blocks

variable {q : Nat → Parser Block} {body body' : Block}

theorem takes_branch (hk : (T.get i).kind = Keyword.ifKw)
    (h : Takes (fun levels => condition (p levels)) n ⟨T, limit, s⟩ ⟨i + 1, a⟩ x ⟨j, a⟩)
    (hq : Takes q m ⟨T, limit, s⟩ ⟨j, a⟩ body ⟨k, b⟩) (he : (T.get k).kind ≠ Keyword.elseKw) :
    Takes (fun levels => branch (q levels) (p levels)) (max n m) ⟨T, limit, s⟩ ⟨i, a⟩
      (.branch x body none ⟨(T.get i).location, body.span.finish⟩) ⟨k, b⟩ := by
  refine .before (expect_ok.2 ⟨hk, rfl, rfl⟩) <| h.bind <| hq.after fun _ => ?_
  exact bind_ok.2 ⟨false, _, accept_ok.2 (.inr ⟨he, rfl, rfl⟩), pure_ok.2 ⟨rfl, rfl⟩⟩

theorem takes_branchElse (hk : (T.get i).kind = Keyword.ifKw)
    (h : Takes (fun levels => condition (p levels)) n ⟨T, limit, s⟩ ⟨i + 1, a⟩ x ⟨j, a⟩)
    (hq : Takes q m ⟨T, limit, s⟩ ⟨j, a⟩ body ⟨k, b⟩) (he : (T.get k).kind = Keyword.elseKw)
    (hq' : Takes q m' ⟨T, limit, s⟩ ⟨k + 1, b⟩ body' ⟨l, d⟩) :
    Takes (fun levels => branch (q levels) (p levels)) (max n (max m m')) ⟨T, limit, s⟩ ⟨i, a⟩
      (.branch x body (some body') ⟨(T.get i).location, body'.span.finish⟩) ⟨l, d⟩ := by
  refine .before (expect_ok.2 ⟨hk, rfl, rfl⟩) <| h.bind <| hq.bind ?_
  refine .before (accept_ok.2 (.inl ⟨he, rfl, rfl⟩)) ?_
  exact hq'.after fun _ => rfl

theorem takes_whileLoop (hk : (T.get i).kind = Keyword.whileKw)
    (h : Takes (fun levels => condition (p levels)) n ⟨T, limit, s⟩ ⟨i + 1, a⟩ x ⟨j, a⟩)
    (hq : Takes q m ⟨T, limit, s⟩ ⟨j, a⟩ body ⟨k, b⟩) :
    Takes (fun levels => whileLoop (q levels) (p levels)) (max n m) ⟨T, limit, s⟩ ⟨i, a⟩
      (.whileLoop x body ⟨(T.get i).location, body.span.finish⟩) ⟨k, b⟩ :=
  .before (expect_ok.2 ⟨hk, rfl, rfl⟩) <| h.bind <| hq.after fun _ => rfl

theorem takes_forLoop {z : VariableId} (hk : (T.get i).kind = Keyword.forKw)
    (hp : (T.get (i + 1)).kind = Symbol.leftParen) (hi : (T.get (i + 2)).kind = .identifier)
    (hz : a.lookupVariable? s (T.get (i + 2)).text = some z)
    (hin : (T.get (i + 3)).kind = Keyword.inKw)
    (h : Takes p n ⟨T, limit, s⟩ ⟨i + 4, a⟩ x ⟨j, a⟩)
    (hj : (T.get j).kind = Symbol.rightParen)
    (hq : Takes q m ⟨T, limit, s⟩ ⟨j + 1, a⟩ body ⟨k, b⟩) :
    Takes (fun levels => forLoop (q levels) (p levels)) (max n m) ⟨T, limit, s⟩ ⟨i, a⟩
      (.forLoop z x body ⟨(T.get i).location, body.span.finish⟩) ⟨k, b⟩ :=
  .before (expect_ok.2 ⟨hk, rfl, rfl⟩) <| .before (expect_ok.2 ⟨hp, rfl, rfl⟩) <|
    .before (expect_ok.2 ⟨hi, rfl, rfl⟩) <| .before (resolve_ok.2 ⟨hz, rfl⟩) <|
      .before (expect_ok.2 ⟨hin, rfl, rfl⟩) <| h.bind <|
        .before (expect_ok.2 ⟨hj, rfl, rfl⟩) <| hq.after fun _ => rfl

theorem takes_functionDeclaration {g f r} (h : HeadAt T s i a g f r j b)
    (hj : (T.get j).kind ≠ Keyword.nativeKw)
    (hq : Takes q n ⟨T, limit, r⟩ ⟨j, b⟩ body ⟨k, d⟩) :
    Takes (fun levels => functionDeclaration (q levels)) n ⟨T, limit, s⟩ ⟨i, a⟩ f
      ⟨k, d.setBody f body ⟨(T.get i).location, body.span.finish⟩⟩ := by
  cases h with
  | mk hk ht hi hp hps hr hd hf =>
    cases hr
    obtain ⟨l, hps⟩ := hps.run a limit s
    refine .before (expect_ok.2 ⟨hk, rfl, rfl⟩) <| .before (advance_run ..) <|
      .before (typeOf_ok.2 ⟨ht, fun h => Bool.noConfusion h.2, rfl⟩) <|
      .before (expect_ok.2 ⟨hi, rfl, rfl⟩) <| .before (expect_ok.2 ⟨hp, rfl, rfl⟩) <|
      .before hps <| .before (scope_ok.2 ⟨rfl, rfl⟩) ?_
    -- The signature is read; the parameters and the function are declared without any level.
    refine .inNewScope <| .before hd.run <| .before (defineFunction_ok.2 ⟨_, hf, rfl⟩) <|
      .before (peek_run ..) ?_
    simp only [Nat.add_zero, if_neg hj]
    exact hq.after fun _ => rfl

theorem takes_statementItem {p : Nat → Parser (Option Node)} {o : Option Node}
    (hk : (T.get i).kind ≠ Symbol.semicolon) (h : Takes p n ⟨T, limit, s⟩ ⟨i, a⟩ o ⟨j, b⟩) :
    Takes (fun levels => statementItem (p levels)) n ⟨T, limit, s⟩ ⟨i, a⟩ o.toList ⟨j, b⟩ :=
  .before (accept_ok.2 (.inr ⟨hk, rfl, rfl⟩)) <| h.after fun _ => rfl

theorem takes_block {r : List Node × Location} (hk : (T.get i).kind = Symbol.leftBrace)
    (h : Takes (fun levels =>
        manyFrom braceClose (statementItem (statement (block levels) (expression levels 1)))
          (T.size - (i + 1))) n
      ⟨T, limit, (a.pushScope (some s)).1⟩ ⟨i + 1, (a.pushScope (some s)).2⟩ r ⟨j, b⟩) :
    Takes block (n + 1) ⟨T, limit, s⟩ ⟨i, a⟩
      ⟨(a.pushScope (some s)).1, r.1, ⟨(T.get i).location, r.2⟩⟩ ⟨j, b⟩ :=
  .deeper (.before (expect_ok.2 ⟨hk, rfl, rfl⟩) <| .inNewScope <|
    (Takes.many h).after fun _ => rfl) rfl

end Blocks

end Statements

end ScriptSyntax.Parser
