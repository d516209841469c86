import ScriptSyntax.Proofs.Lookahead
import ScriptSyntax.Proofs.Grammar.Located
import ScriptSyntax.Proofs.Token.Lexical

/-!
Every construct but the top level takes a token or fails, and the cursor gets no further than the
slot behind the end. So the loops need no bound: each is left after as many rounds as there are
tokens, at most.
-/

namespace ScriptSyntax

namespace Parser

variable {α β : Type} {T : TokenList} {c : Context} {s : Progress}

section Loops

variable {close : Parser (Option β)} {item : Parser (List α)}

/-- The loop without a bound ends with a result, once it has read so many items. -/
inductive LoopRuns (close : Parser (Option β)) (item : Parser (List α)) (c : Context) :
    Progress → Nat → EStateM.Result Failure Progress (List α × β) → Prop
  | closeFails {s e t} : close c s = .error e t → LoopRuns close item c s 0 (.error e t)
  | closed {s finish t} : close c s = .ok (some finish) t →
    LoopRuns close item c s 0 (.ok ([], finish) t)
  | itemFails {s t e u} : close c s = .ok none t → item c t = .error e u →
    LoopRuns close item c s 0 (.error e u)
  | fails {s t items u n e v} : close c s = .ok none t → item c t = .ok items u →
    LoopRuns close item c u n (.error e v) → LoopRuns close item c s (n + 1) (.error e v)
  | goesOn {s t items u n rest finish v} : close c s = .ok none t → item c t = .ok items u →
    LoopRuns close item c u n (.ok (rest, finish) v) →
    LoopRuns close item c s (n + 1) (.ok (items ++ rest, finish) v)

/-- From everywhere the loop ends as `many` does, with no more items than there are tokens left. -/
def LoopEnds (close : Parser (Option β)) (item : Parser (List α)) : Prop :=
  ∀ c s, ∃ n, n ≤ c.tokens.size - s.position ∧ LoopRuns close item c s n (many close item c s)

theorem loopRuns_manyFrom (hclose : Steady close) (hitem : Consumes item) {bound : Nat}
    (hbound : c.tokens.size ≤ bound + s.position) : ∃ n, n ≤ c.tokens.size - s.position ∧
      LoopRuns close item c s n (manyFrom close item bound c s) := by
  -- One round of the loop, whatever is left of the bound behind it.
  have hround {s : Progress} {more : Parser (List α × β)}
      (hmore : ∀ u : Progress, s.position < c.tokens.size → s.position < u.position →
        ∃ n, n ≤ c.tokens.size - u.position ∧ LoopRuns close item c u n (more c u)) :
      ∃ n, n ≤ c.tokens.size - s.position ∧
        LoopRuns close item c s n (closeOr close item more c s) := by
    unfold closeOr
    rw [bind_run]
    cases hc : close c s with
    | error e t => exact ⟨0, Nat.zero_le _, .closeFails hc⟩
    | ok o t =>
      cases o with
      | some finish => exact ⟨0, Nat.zero_le _, .closed hc⟩
      | none =>
        obtain rfl := hclose hc
        dsimp only
        rw [bind_run]
        cases hi : item c t with
        | error e u => exact ⟨0, Nat.zero_le _, .itemFails hc hi⟩
        | ok items u =>
          obtain ⟨hsize, hlt⟩ := hitem hi
          obtain ⟨n, hn, hrun⟩ := hmore u hsize hlt
          refine ⟨n + 1, by omega, ?_⟩
          dsimp only
          rw [bind_run]
          cases hm : more c u with
          | error e v =>
            rw [hm] at hrun
            exact .fails hc hi hrun
          | ok r v =>
            rw [hm] at hrun
            exact .goesOn hc hi hrun
  induction bound generalizing s with
  | zero => exact hround fun u hsize _ => by omega
  | succ bound ih => exact hround fun u _ hlt => ih (by omega)

theorem loopEnds (hclose : Steady close) (hitem : Consumes item) : LoopEnds close item :=
  fun _ _ => loopRuns_manyFrom hclose hitem (by omega)

end Loops

section Consumption

variable {p : Parser Node} {q : Parser Block}

theorem Consumes.ends {p : Parser α} (h : Consumes p) :
    Ends p c s (fun _ t => s.position < t.position) fun _ _ => True := by
  unfold Ends
  split
  · next a t hrun => exact (h hrun).2
  · trivial

theorem consumes_of_statementAt {p : Parser α} (h : ∀ {c s a t}, p c s = .ok a t →
    ∃ cl o, StatementAt c.tokens c.scope s.position s.arena cl o t.position t.arena) :
    Consumes p := by
  intro c s a t hrun
  obtain ⟨cl, o, hcl⟩ := h hrun
  exact ⟨Nat.lt_of_lt_of_le hcl.lt hcl.le_size, hcl.lt⟩

theorem consumes_arguments (hp : ReadsChain 1 p) : Consumes (arguments p) := by
  intro c s r t h
  obtain ⟨es, hes, -⟩ := argumentsAt_of_ok hp h
  exact ⟨Nat.lt_of_lt_of_le hes.lt hes.le_size, hes.lt⟩

theorem consumes_call (hp : ReadsChain 1 p) : Consumes (call p) := by
  intro c s n t h
  obtain ⟨hk, -, r, hr, -⟩ := call_ok.1 h
  have hlt := (consumes_arguments hp hr).2
  exact ⟨TokenList.lt_size_of_kind hk (by decide), by dsimp only at hlt; omega⟩

theorem consumes_load : Consumes load := by
  intro c s n t h
  obtain ⟨hk, _, -, -, rfl⟩ := load_ok.1 h
  exact ⟨TokenList.lt_size_of_kind hk (by decide), Nat.lt_succ_self _⟩

theorem consumes_intLiteral : Consumes intLiteral := by
  intro c s n t h
  obtain ⟨hk, _, -, -, rfl⟩ := intLiteral_ok.1 h
  exact ⟨TokenList.lt_size_of_kind hk (by decide), Nat.lt_succ_self _⟩

theorem consumes_doubleLiteral : Consumes doubleLiteral := by
  intro c s n t h
  obtain ⟨hk, _, -, -, rfl⟩ := doubleLiteral_ok.1 h
  exact ⟨TokenList.lt_size_of_kind hk (by decide), Nat.lt_succ_self _⟩

theorem consumes_unary (levels : Nat) : Consumes (unary levels) := by
  intro c s n t h
  obtain ⟨e, he, -⟩ := (reads_expression levels).2 h
  exact ⟨Nat.lt_of_lt_of_le he.lt he.le_size, he.lt⟩

theorem consumes_variableDeclaration (hp : Forward p) : Consumes (variableDeclaration p) := by
  intro c s n t h
  obtain ⟨type, hk, -, -, -, value, u, hv, x, ⟨b, -, rfl⟩, -⟩ := variableDeclaration_ok.1 h
  have hle := hp hv
  exact ⟨TokenList.lt_size_of_type hk, by dsimp only at hle ⊢; omega⟩

theorem consumes_assignment (hp : Forward p) : Consumes (assignment p) := by
  intro c s n t h
  obtain ⟨hk, x, -, value, hv, -⟩ := assignment_ok.1 h
  have hle := hp hv
  exact ⟨TokenList.lt_size_of_kind hk (by decide), by dsimp only at hle; omega⟩

theorem consumes_printed (hp : ReadsChain 1 p) : Consumes (printed p) := by
  intro c s n t h
  obtain ⟨hk, -, r, hr, -⟩ := printed_ok.1 h
  have hlt := (consumes_arguments hp hr).2
  exact ⟨TokenList.lt_size_of_kind hk (by decide), by dsimp only at hlt; omega⟩

theorem consumes_returned (hp : Forward p) : Consumes (returned p) := by
  intro c s n t h
  obtain ⟨hk, ⟨-, -, rfl⟩ | ⟨-, value, hv, -⟩⟩ := returned_ok.1 h
  · exact ⟨TokenList.lt_size_of_kind hk (by decide), Nat.lt_succ_self _⟩
  · have hle := hp hv
    exact ⟨TokenList.lt_size_of_kind hk (by decide), by dsimp only at hle; omega⟩

theorem consumes_block (levels : Nat) : Consumes (block levels) := by
  intro c s b t h
  obtain ⟨cs, hb⟩ := readsBlock_block levels h
  exact ⟨Nat.lt_of_lt_of_le hb.lt hb.le_size, hb.lt⟩

/-- Every construct but the top level takes a token where it succeeds. -/
theorem consumes_within (levels : Nat) {x : Construct} (hx : x ≠ .topLevel) :
    Consumes (x.within levels) := by
  have hp : ReadsChain 1 (expression levels 1) := readsChain_expression levels 1
  have hq : ReadsBlock (block levels) := readsBlock_block levels
  have hforward := (consumes_expression levels 1).forward
  have hread : ∀ {α} {p : Parser α} {f : α → Reading}, Consumes p →
      Consumes (do return f (← p)) := fun h => h.bind fun _ => forward_pure
  cases x with
  | topLevel => exact absurd rfl hx
  | statement =>
    refine (consumes_statement levels).bind ?_
    rintro (_ | n)
    · exact forward_pure
    · exact forward_pure
  | block => exact hread (f := fun b => .node (.block b)) (consumes_block levels)
  | functionDeclaration =>
    refine hread (f := .function) (consumes_of_statementAt fun h => ?_)
    obtain ⟨cl, hcl⟩ := functionDeclaration_sound hq h
    exact ⟨cl, _, hcl⟩
  | variableDeclaration => exact hread (f := .node) (consumes_variableDeclaration hforward)
  | assignment => exact hread (f := .node) (consumes_assignment hforward)
  | branch =>
    refine hread (f := .node) (consumes_of_statementAt fun h => ?_)
    obtain ⟨cl, hcl⟩ := branch_sound hq hp h
    exact ⟨cl, _, hcl⟩
  | whileLoop =>
    refine hread (f := .node) (consumes_of_statementAt fun h => ?_)
    obtain ⟨cl, hcl⟩ := whileLoop_sound hq hp h
    exact ⟨cl, _, hcl⟩
  | forLoop =>
    refine hread (f := .node) (consumes_of_statementAt fun h => ?_)
    obtain ⟨cl, hcl⟩ := forLoop_sound hq hp h
    exact ⟨cl, _, hcl⟩
  | returned => exact hread (f := .node) (consumes_returned hforward)
  | printed => exact hread (f := .node) (consumes_printed hp)
  | expression => exact hread (f := .node) (consumes_expression levels 1)
  | operation least => exact hread (f := .node) (consumes_expression levels least)
  | unary => exact hread (f := .node) (consumes_unary levels)
  | call => exact hread (f := .node) (consumes_call hp)
  | load => exact hread (f := .node) consumes_load
  | intLiteral => exact hread (f := .node) consumes_intLiteral
  | doubleLiteral => exact hread (f := .node) consumes_doubleLiteral
  | arguments => exact (consumes_arguments hp).bind fun _ => forward_pure

end Consumption

section Bounds

variable {p : Parser Node} {i : Nat}

/-- Behind the end an operand fails at once. -/
theorem ends_operand_behind {signed : Parser Node} {limit : Nat} {l : ScopeId} {a : Arena}
    (h : T.size < i) : Ends (operand signed p) ⟨T, limit, l⟩ ⟨i, a⟩ (fun _ _ => False)
      fun _ t => t.position = i := by
  have hk : (T.get (i + 0)).kind = .undefined := by
    rw [Nat.add_zero, TokenList.get_of_size_lt h]
    rfl
  rw [operand, ends_bind, Ends, peek_run]
  dsimp only
  rw [hk]
  exact rfl

theorem ends_expression_behind {levels least limit : Nat} {l : ScopeId} {a : Arena}
    (h : T.size < i) : Ends (expression levels least) ⟨T, limit, l⟩ ⟨i, a⟩ (fun _ _ => False)
      fun _ t => t.position = i := by
  have hunary : ∀ levels, Ends (unary levels) ⟨T, limit, l⟩ ⟨i, a⟩ (fun _ _ => False)
      fun _ t => t.position = i := by
    intro levels
    cases levels with
    | zero => rw [unary]; exact ends_operand_behind h
    | succ levels => rw [unary]; exact ends_operand_behind h
  cases levels with
  | zero => rw [expression]; exact rfl
  | succ levels =>
    rw [expression, chain, ends_bind]
    exact (hunary levels).imp (fun _ _ hfalse => hfalse.elim) fun _ _ ht => ht

/-- An assignment takes the end for its operator where a name is the last token. -/
theorem ends_assignment_bounded {levels limit : Nat} {l : ScopeId} {a : Arena} (hi : i ≤ T.size) :
    Ends (assignment (expression levels 1)) ⟨T, limit, l⟩ ⟨i, a⟩ (fun _ t => t.position ≤ T.size)
      fun _ t => t.position ≤ T.size + 1 := by
  rcases Nat.lt_or_ge (i + 1) T.size with hlt | hge
  · exact (staysAt_assignment ((stays_levels levels).1 1) hlt limit l a).imp
      (fun _ _ ht => ht.2) fun _ _ he => he.2
  · rw [assignment, ends_bind, identifier, ends_expect]
    refine ⟨fun hk => ?_, fun _ => Nat.le_succ_of_le hi⟩
    have hlt := TokenList.lt_size_of_kind hk (by decide)
    rw [ends_bind, ends_resolve]
    refine ⟨fun x _ => ?_, fun _ => by dsimp only at hlt ⊢; omega⟩
    rw [ends_bind, ends_advance, ends_bind]
    refine (ends_expression_behind (by dsimp only; omega)).imp (fun _ _ hfalse => hfalse.elim) ?_
    intro e t ht
    dsimp only at hlt ht
    omega

theorem stays_within (levels : Nat) {x : Construct} (hx : x ≠ .topLevel) (ha : x ≠ .assignment) :
    Stays T (x.within levels) := by
  have hp := (stays_levels (T := T) levels).1 1
  have hq := stays_block (T := T) levels
  have hread : ∀ {α} {p : Parser α} {f : α → Reading}, Stays T p →
      Stays T (do return f (← p)) := fun h => Yields.bind h fun _ _ => yields_pure trivial
  cases x with
  | topLevel => exact absurd rfl hx
  | statement =>
    refine (stays_statement hq hp).bind ?_
    rintro (_ | n) -
    · exact yields_pure trivial
    · exact yields_pure trivial
  | block => exact hread (f := fun b => .node (.block b)) hq
  | functionDeclaration => exact hread (f := .function) (stays_functionDeclaration hq)
  | variableDeclaration => exact hread (f := .node) (stays_variableDeclaration hp)
  | assignment => exact absurd rfl ha
  | branch => exact hread (f := .node) (stays_branch hq hp)
  | whileLoop => exact hread (f := .node) (stays_whileLoop hq hp)
  | forLoop => exact hread (f := .node) (stays_forLoop hq hp)
  | returned => exact hread (f := .node) (stays_returned hp)
  | printed => exact hread (f := .node) (stays_printed hp)
  | expression => exact hread (f := .node) hp
  | operation least => exact hread (f := .node) ((stays_levels levels).1 least)
  | unary => exact hread (f := .node) (stays_levels levels).2
  | call => exact hread (f := .node) (stays_call hp)
  | load => exact hread (f := .node) stays_load
  | intLiteral => exact hread (f := .node) stays_intLiteral
  | doubleLiteral => exact hread (f := .node) stays_doubleLiteral
  | arguments => exact (stays_arguments hp).bind fun _ _ => yields_pure trivial

theorem ends_within_bounded (levels : Nat) {x : Construct} (hx : x ≠ .topLevel)
    (hs : s.position ≤ c.tokens.size) : Ends (x.within levels) c s
      (fun _ t => t.position ≤ c.tokens.size) fun _ t => t.position ≤ c.tokens.size + 1 := by
  by_cases ha : x = .assignment
  · subst ha
    exact ends_bind.2 (ends_assignment_bounded hs)
  · exact (stays_within levels hx ha s.position hs c.limit c.scope s.arena).imp
      (fun _ _ ht => ht.2) fun _ _ he => he.2

end Bounds

/-- Wherever the cursor stands among scanned tokens or at their end, every construct but the top
level moves it on and not past the end, or fails with no more than the end taken; the top level
succeeds at the end only. So the loops over arguments, parameters and statements all end, on all
lists of tokens. -/
theorem reading_progresses {source : String} {c : Context} {s : Progress}
    (hc : c.tokens = (TokenList.scan source).1) (hs : s.position ≤ c.tokens.size) (levels : Nat) :
    (∀ x : Construct, x ≠ .topLevel → Ends (x.within levels) c s
      (fun _ t => s.position < t.position ∧ t.position ≤ c.tokens.size)
      fun _ t => s.position ≤ t.position ∧ t.position ≤ c.tokens.size + 1) ∧
    (∀ r t, Construct.topLevel.within levels c s = .ok r t → t.position = c.tokens.size) ∧
    LoopEnds parenClose (do
      let argument ← expression levels 1
      separator
      return [argument]) ∧
    LoopEnds parenClose (do return [← parameter]) ∧
    LoopEnds braceClose (statementItem (statement (block levels) (expression levels 1))) ∧
    LoopEnds endClose (statementItem (statement (block levels) (expression levels 1))) := by
  have hstatement := (consumes_statement levels).statementItem
  refine ⟨fun x hx => ?_, fun r t h => ?_, ?_, ?_, ?_, ?_⟩
  · have hforward := congruence_local.within levels x c.tokens c.tokens c.limit c.scope s
    have hconsumes : Ends (x.within levels) c s _ _ := (consumes_within levels hx).ends
    refine (hconsumes.and (hforward.and (ends_within_bounded levels hx hs))).imp ?_ ?_
    · exact fun _ t ht => ⟨ht.1, ht.2.2⟩
    · exact fun _ t ht => ⟨ht.2.1.1, ht.2.2⟩
  · obtain ⟨f, u, hf, hr⟩ := bind_ok.1 h
    obtain ⟨-, rfl⟩ := pure_ok.1 hr
    have hend : (c.tokens.get u.position).kind = .endOfInput := by
      obtain ⟨body, v, hbody, -, rfl⟩ := topLevel_ok.1 hf
      obtain ⟨-, j, -, hj, -, rfl⟩ := itemsAt_of_end hbody
      exact hj
    have hle : Ends (topLevel levels) c s (fun _ t => t.position ≤ c.tokens.size) _ :=
      stays_topLevel levels s.position hs c.limit c.scope s.arena
    rw [Ends, hf] at hle
    have hlexical := TokenList.lexical_scan source
    rw [← hc] at hlexical
    exact TokenList.eq_size_of_end hlexical hle hend
  · exact loopEnds steady_parenClose ((consumes_expression levels 1).bind fun _ =>
      forward_separator.bind fun _ => forward_pure)
  · exact loopEnds steady_parenClose (consumes_parameter.bind fun _ => forward_pure)
  · exact loopEnds steady_braceClose hstatement
  · exact loopEnds steady_endClose hstatement

/-- The type of a parameter is read where the text ends, and the loop is left in its first round. -/
theorem reading_progresses_open :
    let c : Context := ⟨(TokenList.scan "function void f(").1, 8, Arena.root⟩
    c.tokens.size = 4 ∧
      Ends (Construct.functionDeclaration.within 3) c ⟨0, .fresh⟩
        (fun _ t => 0 < t.position ∧ t.position ≤ 4) (fun _ t => 0 ≤ t.position ∧ t.position ≤ 5) ∧
      Ends (Construct.functionDeclaration.within 3) c ⟨0, .fresh⟩ (fun _ _ => False)
        (fun e t => e.cause = .typeExpected "eof" ∧ t.position = 5) ∧
      LoopRuns parenClose (do return [← parameter]) c ⟨4, .fresh⟩ 0
        (many parenClose (do return [← parameter]) c ⟨4, .fresh⟩) := by
  intro c
  have hsize : c.tokens.size = 4 := by decide +kernel
  obtain ⟨hends, -⟩ := reading_progresses (c := c) (s := ⟨0, .fresh⟩) rfl (Nat.zero_le _) 3
  obtain ⟨-, -, -, hloop, -⟩ := reading_progresses (c := c) (s := ⟨4, .fresh⟩) rfl hsize.ge 3
  obtain ⟨n, hn, hruns⟩ := hloop c ⟨4, .fresh⟩
  have hrun : (match Construct.functionDeclaration.within 3 c ⟨0, .fresh⟩ with
      | .ok _ _ => false
      | .error e t => decide (e.cause = .typeExpected "eof" ∧ t.position = 5)) = true := by
    decide +kernel
  refine ⟨hsize, ?_, ?_, ?_⟩
  · have hends := hends .functionDeclaration (by decide)
    rwa [hsize] at hends
  · unfold Ends
    split at hrun
    · contradiction
    · next heq =>
      rw [heq]
      exact of_decide_eq_true hrun
  · rw [hsize] at hn
    obtain rfl : n = 0 := Nat.le_zero.1 hn
    exact hruns

end Parser

end ScriptSyntax
