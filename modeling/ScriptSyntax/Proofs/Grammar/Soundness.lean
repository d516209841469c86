import ScriptSyntax.Proofs.Grammar.Extent
import ScriptSyntax.Proofs.Grammar.Outcome

/-!
What the parser reads, the rules allow: each successful run has a derivation over the same slots,
with the same tree and the same arena.
-/

namespace ScriptSyntax.Parser

variable {c : Context} {s s' : Progress}

/-- Each success of `p` is an operand that the rules allow, and declares nothing. -/
def ReadsOperand (p : Parser Node) : Prop :=
  ∀ {c s n s'}, p c s = .ok n s' →
    ∃ e, OperandAt c.tokens s.arena c.scope s.position e n s'.position ∧ s'.arena = s.arena

def ReadsChain (least : Nat) (p : Parser Node) : Prop :=
  ∀ {c s n s'}, p c s = .ok n s' →
    ∃ e, ChainAt c.tokens s.arena c.scope least s.position e n s'.position ∧ s'.arena = s.arena

theorem tooDeep_ok {n : Node} : tooDeep c s = .ok n s' ↔ False := by
  simp only [tooDeep, failHere, bind_ok, fail_ok, and_false, exists_false]

theorem separatorAt_of_ok {u : Unit} (h : separator c s = .ok u s') :
    SeparatorAt c.tokens s.position s'.position ∧ s'.arena = s.arena := by
  obtain ⟨hk, rfl⟩ | ⟨hk, rfl⟩ := separator_ok.1 h
  · exact ⟨.comma hk, rfl⟩
  · exact ⟨.last hk, rfl⟩

theorem argumentsAt_of_ok {p : Parser Node} (hp : ReadsChain 1 p) {r : List Node × Location}
    (h : arguments p c s = .ok r s') :
    ∃ es, ArgumentsAt c.tokens s.arena c.scope s.position es r.1 r.2 s'.position ∧
      s'.arena = s.arena := by
  refine many_rule (fun s ns l s' => ∃ es,
    ArgumentsAt c.tokens s.arena c.scope s.position es ns l s'.position ∧ s'.arena = s.arena)
    ?_ ?_ h
  · intro s l s' h
    obtain ⟨hk, hl, rfl⟩ | ⟨_, hl, _⟩ := parenClose_ok.1 h
    · cases hl
      exact ⟨[], .done hk, rfl⟩
    · exact nomatch hl
  · rintro s t ms u ns l s' hc hm ⟨es, hes, ha⟩
    obtain ⟨_, hl, _⟩ | ⟨_, -, rfl⟩ := parenClose_ok.1 hc
    · exact nomatch hl
    obtain ⟨m, v, hp', hm⟩ := bind_ok.1 hm
    obtain ⟨_, w, hs, hm⟩ := bind_ok.1 hm
    obtain ⟨rfl, rfl⟩ := pure_ok.1 hm
    obtain ⟨e, he, hv⟩ := hp hp'
    obtain ⟨hs, hw⟩ := separatorAt_of_ok hs
    rw [hw, hv] at hes ha
    exact ⟨e :: es, .more he hs hes, ha⟩

theorem readsOperand_operand {signed p : Parser Node}
    (hs : ReadsOperand signed) (hp : ReadsChain 1 p) : ReadsOperand (operand signed p) := by
  intro c s n s' h
  rw [operand_ok] at h
  cases h with
  | signed _ h => exact hs h
  | parenthesised hk h =>
    obtain ⟨t, hi, hr, rfl⟩ := parenthesised_ok.1 h
    obtain ⟨e, he, ha⟩ := hp hi
    exact ⟨e, .parenthesised hk he hr, ha⟩
  | call hk hk' h =>
    obtain ⟨_, _, r, hr, rfl⟩ := call_ok.1 h
    obtain ⟨es, hes, ha⟩ := argumentsAt_of_ok hp hr
    exact ⟨_, .call hk hk' hes, ha⟩
  | load hk hk' h =>
    obtain ⟨_, x, hx, rfl, rfl⟩ := load_ok.1 h
    exact ⟨_, .load hk hk' hx, rfl⟩
  | int hk h =>
    obtain ⟨_, v, hv, rfl, rfl⟩ := intLiteral_ok.1 h
    exact ⟨_, .int hk hv, rfl⟩
  | double hk h =>
    obtain ⟨_, v, hv, rfl, rfl⟩ := doubleLiteral_ok.1 h
    exact ⟨_, .double hk hv, rfl⟩
  | string hk h =>
    obtain ⟨rfl, rfl⟩ := stringLiteral_ok.1 h
    exact ⟨_, .string hk, rfl⟩

theorem readsOperand_applied {p : Parser Node} (hp : ReadsOperand p) :
    ReadsOperand (applied p) := by
  intro c s n s' h
  obtain ⟨m, hm, o, hk, rfl⟩ := applied_ok.1 h
  obtain ⟨e, he, ha⟩ := hp hm
  exact ⟨_, .unary hk he, ha⟩

/-- The bound on operators is not what ends a chain: at zero there is no token left. -/
theorem climbAt_of_ok {right : Nat → Parser Node} (hr : ∀ least, ReadsChain least (right least))
    {least bound : Nat} {left n : Node} (hb : c.tokens.size ≤ bound + s.position)
    (h : climb right least bound left c s = .ok n s') (e₀ : Phrase) :
    ∃ e, ClimbAt c.tokens s.arena c.scope least s.position e₀ left e n s'.position ∧
      s'.arena = s.arena := by
  induction bound generalizing s left e₀ with
  | zero =>
    obtain ⟨rfl, rfl⟩ := climb_zero_ok.1 h
    refine ⟨e₀, .done fun hk => ?_, rfl⟩
    rcases TokenList.kind_of_size_le (by omega : c.tokens.size ≤ s.position) with h | h <;>
      rw [h] at hk <;> exact absurd hk.1 (by decide)
  | succ bound ih =>
    obtain ⟨⟨_, hl⟩, other, t, ho, o, hk, h⟩ | ⟨hk, rfl, rfl⟩ := climb_succ_ok.1 h
    · rw [hk] at hl ho
      obtain ⟨e₁, he₁, ha⟩ := hr _ ho
      have hlt := he₁.lt
      obtain ⟨e, he, ha'⟩ := ih (by dsimp only at hlt; omega) h (.binary o e₀ e₁)
      rw [ha] at he ha'
      exact ⟨e, .more hk hl he₁ he, ha'⟩
    · exact ⟨e₀, .done hk, rfl⟩

theorem readsChain_chain {p : Parser Node} {right : Nat → Parser Node} {least : Nat}
    (hp : ReadsOperand p) (hr : ∀ least, ReadsChain least (right least)) :
    ReadsChain least (chain p right least) := by
  intro c s n s' h
  obtain ⟨left, t, hl, h⟩ := chain_ok.1 h
  obtain ⟨e₀, he₀, ha⟩ := hp hl
  obtain ⟨e, he, ha'⟩ := climbAt_of_ok hr (by omega) h e₀
  rw [ha] at he ha'
  exact ⟨e, .mk he₀ he, ha'⟩

/-- By induction on the levels of nesting that are left. -/
theorem reads_expression (levels : Nat) :
    (∀ least, ReadsChain least (expression levels least)) ∧ ReadsOperand (unary levels) := by
  induction levels with
  | zero =>
    refine ⟨fun least c s n s' h => ?_, ?_⟩
    · rw [expression, tooDeep_ok] at h
      exact h.elim
    · rw [unary]
      exact readsOperand_operand (fun h => (tooDeep_ok.1 h).elim) fun h => (tooDeep_ok.1 h).elim
  | succ levels ih =>
    have hc : ∀ least, ReadsChain least (expression (levels + 1) least) := by
      intro least
      rw [expression]
      exact readsChain_chain ih.2 ih.1
    refine ⟨hc, ?_⟩
    rw [unary_succ]
    exact readsOperand_operand (readsOperand_applied ih.2) (hc 1)

theorem readsChain_expression (levels least : Nat) : ReadsChain least (expression levels least) :=
  (reads_expression levels).1 least

/-- Each success of `q` is a block that the rules allow. -/
def ReadsBlock (q : Parser Block) : Prop :=
  ∀ {c s b s'}, q c s = .ok b s' →
    ∃ cs, BlockAt c.tokens c.scope s.position s.arena cs b s'.position s'.arena

def ReadsStatement (p : Parser (Option Node)) : Prop :=
  ∀ {c s o s'}, p c s = .ok o s' →
    ∃ cl, StatementAt c.tokens c.scope s.position s.arena cl o s'.position s'.arena

theorem parametersAt_of_ok {r : List (ValueType × Token) × Location}
    (h : many parenClose (do return [← parameter]) c s = .ok r s') :
    ParametersAt c.tokens s.position r.1 s'.position ∧ s'.arena = s.arena := by
  refine many_rule (fun s ps _ s' =>
    ParametersAt c.tokens s.position ps s'.position ∧ s'.arena = s.arena) ?_ ?_ h
  · intro s l s' h
    obtain ⟨hk, _, rfl⟩ | ⟨_, hl, _⟩ := parenClose_ok.1 h
    · exact ⟨.done hk, rfl⟩
    · exact nomatch hl
  · rintro s t qs u ps l s' hc hm ⟨hps, ha⟩
    obtain ⟨_, hl, _⟩ | ⟨_, -, rfl⟩ := parenClose_ok.1 hc
    · exact nomatch hl
    obtain ⟨q, v, hp, hm⟩ := bind_ok.1 hm
    obtain ⟨rfl, rfl⟩ := pure_ok.1 hm
    obtain ⟨type, ht, hv, hi, _, hs, rfl⟩ := parameter_ok.1 hp
    obtain ⟨hs, hw⟩ := separatorAt_of_ok hs
    exact ⟨.more ht hv hi hs hps, ha.trans hw⟩

theorem definesAll_of_ok {ps : List (ValueType × Token)} {u : Unit}
    (h : defineAll ps c s = .ok u s') :
    DefinesAll c.scope s.arena ps s'.arena ∧ s'.position = s.position := by
  induction ps generalizing s with
  | nil =>
    obtain rfl := defineAll_nil_ok.1 h
    exact ⟨.nil, rfl⟩
  | cons p ps ih =>
    obtain ⟨type, name⟩ := p
    obtain ⟨x, t, hx, h⟩ := defineAll_cons_ok.1 h
    obtain ⟨a, ha, rfl⟩ := define_ok.1 hx
    obtain ⟨hps, hp⟩ := ih h
    exact ⟨.cons ha hps, hp⟩

theorem functionDeclaration_sound {q : Parser Block} (hq : ReadsBlock q) {f : FunctionId}
    (h : functionDeclaration q c s = .ok f s') :
    ∃ cl, StatementAt c.tokens c.scope s.position s.arena cl none s'.position s'.arena := by
  obtain ⟨hk, returns, ht, hi, hl, ps, t, hps, _, v, hd, g, w, hg, hbody⟩ :=
    functionDeclaration_ok.1 h
  obtain ⟨hps, ha⟩ := parametersAt_of_ok hps
  obtain ⟨hd, hv⟩ := definesAll_of_ok hd
  obtain ⟨b, hf, rfl⟩ := defineFunction_ok.1 hg
  rw [ha] at hd hf hbody
  have head := HeadAt.mk hk ht hi hl hps rfl hd hf
  obtain ⟨hk, block, x, hb, -, rfl⟩ | ⟨_, block, x, hb, -, rfl⟩ := hbody
  · obtain ⟨_, hs, hc, rfl, rfl⟩ := nativeBody_ok.1 hb
    dsimp only at hk hs hc
    rw [hv] at hk hs hc
    rw [hv]
    exact ⟨_, .native head hk hs hc rfl⟩
  · obtain ⟨cs, hb⟩ := hq hb
    dsimp only at hb
    rw [hv] at hb
    exact ⟨_, .function head hb⟩

/-- A condition in parentheses ends in front of what it decides about. -/
theorem condition_sound {p : Parser Node} (hp : ReadsChain 1 p) {n : Node}
    (h : condition p c s = .ok n s') :
    (c.tokens.get s.position).kind = Symbol.leftParen ∧ ∃ e j,
      ChainAt c.tokens s.arena c.scope 1 (s.position + 1) e n j ∧
      (c.tokens.get j).kind = Symbol.rightParen ∧ s' = ⟨j + 1, s.arena⟩ := by
  obtain ⟨hl, t, hn, hr, rfl⟩ := condition_ok.1 h
  obtain ⟨e, he, ha⟩ := hp hn
  exact ⟨hl, e, t.position, he, hr, by rw [ha]⟩

theorem branch_sound {q : Parser Block} {p : Parser Node} (hq : ReadsBlock q)
    (hp : ReadsChain 1 p) {n : Node} (h : branch q p c s = .ok n s') :
    ∃ cl, StatementAt c.tokens c.scope s.position s.arena cl (some n) s'.position s'.arena := by
  obtain ⟨hk, test, t, hc, thenBody, u, ht, hr⟩ := branch_ok.1 h
  obtain ⟨hl, e, j, he, hj, rfl⟩ := condition_sound hp hc
  obtain ⟨cs, ht⟩ := hq ht
  obtain ⟨hu, elseBody, hb, rfl⟩ | ⟨hu, rfl, rfl⟩ := hr
  · obtain ⟨cs', hb⟩ := hq hb
    exact ⟨_, .branchElse hk hl he hj ht hu hb⟩
  · exact ⟨_, .branch hk hl he hj ht hu⟩

theorem whileLoop_sound {q : Parser Block} {p : Parser Node} (hq : ReadsBlock q)
    (hp : ReadsChain 1 p) {n : Node} (h : whileLoop q p c s = .ok n s') :
    ∃ cl, StatementAt c.tokens c.scope s.position s.arena cl (some n) s'.position s'.arena := by
  obtain ⟨hk, test, t, hc, body, hb, rfl⟩ := whileLoop_ok.1 h
  obtain ⟨hl, e, j, he, hj, rfl⟩ := condition_sound hp hc
  obtain ⟨cs, hb⟩ := hq hb
  exact ⟨_, .whileLoop hk hl he hj hb⟩

theorem forLoop_sound {q : Parser Block} {p : Parser Node} (hq : ReadsBlock q)
    (hp : ReadsChain 1 p) {n : Node} (h : forLoop q p c s = .ok n s') :
    ∃ cl, StatementAt c.tokens c.scope s.position s.arena cl (some n) s'.position s'.arena := by
  obtain ⟨hk, hl, hi, x, hx, hn, range, t, hr, ht, body, hb, rfl⟩ := forLoop_ok.1 h
  obtain ⟨e, he, ha⟩ := hp hr
  obtain ⟨cs, hb⟩ := hq hb
  rw [ha] at hb
  exact ⟨_, .forLoop hk hl hi hx hn he ht hb⟩

section Terminated

/-! The statements that a semicolon ends, apart from expressions. -/

variable {p : Parser Node} {o : Option Node}

theorem variableDeclaration_sound (hp : ReadsChain 1 p)
    (h : terminated (variableDeclaration p) c s = .ok o s') :
    ∃ cl, StatementAt c.tokens c.scope s.position s.arena cl o s'.position s'.arena := by
  obtain ⟨n, t, hn, hs, rfl, rfl⟩ := terminated_ok.1 h
  obtain ⟨type, hk, hv, hi, ha, value, u, he, x, ⟨b, hb, rfl⟩, rfl⟩ := variableDeclaration_ok.1 hn
  obtain ⟨e, he, hu⟩ := hp he
  rw [hu] at hb
  exact ⟨_, .declare hk hv hi ha he hb hs⟩

theorem printed_sound (hp : ReadsChain 1 p) (h : terminated (printed p) c s = .ok o s') :
    ∃ cl, StatementAt c.tokens c.scope s.position s.arena cl o s'.position s'.arena := by
  obtain ⟨n, t, hn, hs, rfl, rfl⟩ := terminated_ok.1 h
  obtain ⟨hk, hl, r, hr, rfl⟩ := printed_ok.1 hn
  obtain ⟨es, hes, ha⟩ := argumentsAt_of_ok hp hr
  dsimp only at ha ⊢
  rw [ha]
  exact ⟨_, .print hk hl hes hs⟩

theorem returned_sound (hp : ReadsChain 1 p) (h : terminated (returned p) c s = .ok o s') :
    ∃ cl, StatementAt c.tokens c.scope s.position s.arena cl o s'.position s'.arena := by
  obtain ⟨n, t, hn, hs, rfl, rfl⟩ := terminated_ok.1 h
  obtain ⟨hk, ⟨hc, rfl, rfl⟩ | ⟨hc, value, he, rfl⟩⟩ := returned_ok.1 hn
  · exact ⟨_, .giveBackNothing hk hc⟩
  · obtain ⟨e, he, ha⟩ := hp he
    dsimp only at ha ⊢
    rw [ha]
    exact ⟨_, .giveBack hk he hs⟩

theorem assignment_sound (hp : ReadsChain 1 p) (h : terminated (assignment p) c s = .ok o s') :
    ∃ cl, StatementAt c.tokens c.scope s.position s.arena cl o s'.position s'.arena := by
  obtain ⟨n, t, hn, hs, rfl, rfl⟩ := terminated_ok.1 h
  obtain ⟨hk, x, hx, value, he, o, ho, rfl⟩ := assignment_ok.1 hn
  obtain ⟨e, he, ha⟩ := hp he
  dsimp only at ha ⊢
  rw [ha]
  exact ⟨_, .assign hk hx ho he hs⟩

end Terminated

theorem readsStatement_statement {q : Parser Block} {p : Parser Node} (hq : ReadsBlock q)
    (hp : ReadsChain 1 p) : ReadsStatement (statement q p) := by
  intro c s o s' h
  rw [statement_ok] at h
  cases h with
  | function _ h => exact functionDeclaration_sound hq h
  | block _ h =>
    obtain ⟨cs, hb⟩ := hq h
    exact ⟨_, .block hb⟩
  | branch _ h => exact branch_sound hq hp h
  | whileLoop _ h => exact whileLoop_sound hq hp h
  | forLoop _ h => exact forLoop_sound hq hp h
  | declare _ h => exact variableDeclaration_sound hp h
  | print _ h => exact printed_sound hp h
  | giveBack _ h => exact returned_sound hp h
  | assign _ _ h => exact assignment_sound hp h
  | expression hk _ hi h =>
    obtain ⟨n, t, hn, hs, rfl, rfl⟩ := terminated_ok.1 h
    obtain ⟨e, he, ha⟩ := hp hn
    dsimp only
    rw [ha]
    exact ⟨_, .expression hk hi he hs⟩

/-- Statements up to what `close` takes as their end, which leaves the cursor in front of it or
behind it. -/
theorem itemsAt_of_ok {p : Parser (Option Node)} (End : Nat → Location → Nat → Prop)
    (hp : ReadsStatement p) {close : Parser (Option Location)}
    (hclose : ∀ {s l s'}, close c s = .ok (some l) s' →
      End s.position l s'.position ∧ s'.arena = s.arena)
    (hnone : ∀ {s s'}, close c s = .ok none s' → s' = s) {r : List Node × Location}
    (h : many close (statementItem p) c s = .ok r s') :
    ∃ cs j, ItemsAt c.tokens c.scope s.position s.arena cs r.1 j s'.arena ∧
      End j r.2 s'.position := by
  refine many_rule (fun s ns l s' => ∃ cs j,
    ItemsAt c.tokens c.scope s.position s.arena cs ns j s'.arena ∧ End j l s'.position) ?_ ?_ h
  · intro s l s' h
    obtain ⟨he, ha⟩ := hclose h
    exact ⟨[], s.position, ha ▸ .nil, he⟩
  · rintro s t ms u ns l s' hc hm ⟨cs, j, hcs, he⟩
    obtain rfl := hnone hc
    obtain ⟨hk, rfl, rfl⟩ | ⟨_, o, ho, rfl⟩ := statementItem_ok.1 hm
    · exact ⟨cs, j, .semicolon hk hcs, he⟩
    · obtain ⟨cl, hcl⟩ := hp ho
      exact ⟨cl :: cs, j, .cons hcl hcs, he⟩

theorem readsBlock_braced {p : Parser (Option Node)} (hp : ReadsStatement p) :
    ReadsBlock (braced p) := by
  intro c s b s' h
  obtain ⟨hk, r, hr, rfl⟩ := braced_ok.1 h
  obtain ⟨cs, j, hcs, hj, hl, hj'⟩ := itemsAt_of_ok
    (fun i l j => (c.tokens.get i).kind = Symbol.rightBrace ∧ (c.tokens.get i).location = l ∧
      i + 1 = j) hp
    (fun h => by
      obtain ⟨hk, hl, rfl⟩ | ⟨_, hl, _⟩ := braceClose_ok.1 h
      · exact ⟨⟨hk, Option.some.inj hl, rfl⟩, rfl⟩
      · exact nomatch hl)
    (fun h => by
      obtain ⟨_, hl, _⟩ | ⟨_, -, rfl⟩ := braceClose_ok.1 h
      · exact nomatch hl
      · rfl) hr
  rw [← hl, ← hj']
  exact ⟨cs, .mk hk rfl hcs hj⟩

/-- By induction on the levels of nesting that are left. -/
theorem readsBlock_block (levels : Nat) : ReadsBlock (block levels) := by
  induction levels with
  | zero =>
    intro c s b s' h
    simp only [block, tooDeep, failHere, bind_ok, fail_ok, and_false, exists_false] at h
  | succ levels ih =>
    rw [block]
    exact readsBlock_braced (readsStatement_statement ih (readsChain_expression levels 1))

/-- All statements of a text, up to its end. -/
theorem itemsAt_of_end {limit : Nat} {r : List Node × Location}
    (h : many endClose (statementItem (statement (block limit) (expression limit 1))) c s =
      .ok r s') :
    ∃ cs j, ItemsAt c.tokens c.scope s.position s.arena cs r.1 j s'.arena ∧
      (c.tokens.get j).kind = .endOfInput ∧ (c.tokens.get j).location = r.2 ∧ j = s'.position :=
  itemsAt_of_ok
    (fun i l j => (c.tokens.get i).kind = .endOfInput ∧ (c.tokens.get i).location = l ∧ i = j)
    (readsStatement_statement (readsBlock_block limit) (readsChain_expression limit 1))
    (fun h => by
      obtain ⟨hk, hl, rfl⟩ | ⟨_, hl, _⟩ := endClose_ok.1 h
      · exact ⟨⟨hk, Option.some.inj hl, rfl⟩, rfl⟩
      · exact nomatch hl)
    (fun h => by
      obtain ⟨_, hl, _⟩ | ⟨_, -, rfl⟩ := endClose_ok.1 h
      · exact nomatch hl
      · rfl) h

end ScriptSyntax.Parser
