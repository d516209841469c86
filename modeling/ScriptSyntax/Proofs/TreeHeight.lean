import ScriptSyntax.Proofs.Grammar.Completeness
import ScriptSyntax.Proofs.Program.Height
import ScriptSyntax.Proofs.Scope.Change
import ScriptSyntax.Proofs.Transcription

/-!
What the limit on nesting says of the height of trees. An operation is folded into the left operand
of the next one without another level, so the limit bounds a height that does not count such steps.
-/

namespace ScriptSyntax

namespace Arena

variable {a b : Arena} {m : Nat}

/-- No body of a function is higher than `m`, steps to left operands not counted. -/
def Low (m : Nat) (a : Arena) : Prop := ∀ f, (a.functionAt f).body.height 0 ≤ m

theorem Low.congr (h : a.Low m) (hb : b.declaredFunctions = a.declaredFunctions) : b.Low m := by
  intro f
  rw [functionAt_congr hb]
  exact h f

theorem Low.push {x : Function} (h : a.Low m)
    (hb : b.declaredFunctions = a.declaredFunctions.push x) (hx : x.body.height 0 ≤ m) :
    b.Low m := by
  intro f
  rw [functionAt_of_push hb]
  split
  · exact hx
  · exact h f

theorem Low.setBody {g : FunctionId} {body : Block} {span : Span} (h : a.Low m)
    (hbody : body.height 0 ≤ m) : (a.setBody g body span).Low m := by
  intro f
  rw [functionAt_setBody]
  split
  · exact hbody
  · exact h f

theorem Low.pushScope {s : ScopeId} (h : a.Low m) : (a.pushScope (some s)).2.Low m := h.congr rfl

theorem Low.fresh (hm : 1 ≤ m) : Low m .fresh := fun _ => hm

end Arena

open Arena

namespace Parser

variable {c : Context} {s s' : Progress} {l k m : Nat}

section Expressions

/-- The trees that `p` returns are no higher than `k`, steps to left operands not counted. -/
def Lowers (k : Nat) (p : Parser Node) : Prop := ∀ {c s n s'}, p c s = .ok n s' → n.height 0 ≤ k

theorem lowers_tooDeep : Lowers k tooDeep := fun h => (tooDeep_ok.1 h).elim

theorem low_arguments {p : Parser Node} (hp : Lowers k p) {r : List Node × Location}
    (h : arguments p c s = .ok r s') : heightOf 0 r.1 ≤ k := by
  refine many_rule (fun _ ns _ _ => heightOf 0 ns ≤ k) (fun _ => Nat.zero_le k) ?_ h
  intro s t ms u ns l s' _ hm hns
  obtain ⟨n, v, hn, hm⟩ := bind_ok.1 hm
  obtain ⟨_, w, _, hm⟩ := bind_ok.1 hm
  obtain ⟨rfl, rfl⟩ := pure_ok.1 hm
  exact Nat.max_le.2 ⟨hp hn, hns⟩

theorem lowers_operand {signed p : Parser Node} (hs : Lowers (k + 1) signed) (hp : Lowers k p) :
    Lowers (k + 1) (operand signed p) := by
  intro c s n s' h
  rw [operand_ok] at h
  cases h with
  | signed _ h => exact hs h
  | parenthesised _ h =>
    obtain ⟨t, hn, -⟩ := parenthesised_ok.1 h
    exact Nat.le_succ_of_le (hp hn)
  | call _ _ h =>
    obtain ⟨_, _, r, hr, rfl⟩ := call_ok.1 h
    exact Nat.succ_le_succ (low_arguments hp hr)
  | load _ _ h =>
    obtain ⟨_, _, _, rfl, -⟩ := load_ok.1 h
    exact Nat.succ_le_succ (Nat.zero_le k)
  | int _ h =>
    obtain ⟨_, _, _, rfl, -⟩ := intLiteral_ok.1 h
    exact Nat.succ_le_succ (Nat.zero_le k)
  | double _ h =>
    obtain ⟨_, _, _, rfl, -⟩ := doubleLiteral_ok.1 h
    exact Nat.succ_le_succ (Nat.zero_le k)
  | string _ h =>
    obtain ⟨rfl, -⟩ := stringLiteral_ok.1 h
    exact Nat.succ_le_succ (Nat.zero_le k)

theorem lowers_applied {p : Parser Node} (hp : Lowers k p) : Lowers (k + 1) (applied p) := by
  intro c s n s' h
  obtain ⟨m, hm, o, _, rfl⟩ := applied_ok.1 h
  exact Nat.succ_le_succ (hp hm)

/-- However many operators follow, the left operand stays as low as it was. -/
theorem low_climb {right : Nat → Parser Node} (hr : ∀ least, Lowers k (right least))
    {least bound : Nat} {left n : Node} (hl : left.height 0 ≤ k + 1)
    (h : climb right least bound left c s = .ok n s') : n.height 0 ≤ k + 1 := by
  induction bound generalizing s left with
  | zero =>
    obtain ⟨rfl, -⟩ := climb_zero_ok.1 h
    exact hl
  | succ bound ih =>
    obtain ⟨-, other, t, ho, o, _, h⟩ | ⟨-, rfl, -⟩ := climb_succ_ok.1 h
    · refine ih ?_ h
      exact Nat.max_le.2 ⟨hl, Nat.succ_le_succ (hr _ ho)⟩
    · exact hl

/-- By induction on the levels of nesting that are left. -/
theorem lowers_levels (levels : Nat) :
    (∀ least, Lowers levels (expression levels least)) ∧ Lowers (levels + 1) (unary levels) := by
  induction levels with
  | zero =>
    refine ⟨fun least => ?_, ?_⟩
    · rw [expression]
      exact lowers_tooDeep
    · rw [unary]
      exact lowers_operand lowers_tooDeep lowers_tooDeep
  | succ levels ih =>
    have hexpression : ∀ least, Lowers (levels + 1) (expression (levels + 1) least) := by
      intro least c s n s' h
      rw [expression] at h
      obtain ⟨left, t, hl, h⟩ := chain_ok.1 h
      exact low_climb ih.1 (ih.2 hl) h
    refine ⟨hexpression, ?_⟩
    rw [unary_succ]
    exact lowers_operand (lowers_applied ih.2) (hexpression 1)

end Expressions

section Statements

/-- The blocks that `q` returns are no higher than `k`, and it leaves the bodies of functions no
higher than `m`. -/
def LowersBlock (m k : Nat) (q : Parser Block) : Prop :=
  ∀ {c s b s'}, q c s = .ok b s' → s.arena.Low m → b.height 0 ≤ k ∧ s'.arena.Low m

variable {p : Parser Node} {q : Parser Block} {n : Node} {o : Option Node}

theorem low_define {type : ValueType} {name : Token} {x : VariableId}
    (h : define type name c s = .ok x s') (ha : s.arena.Low m) : s'.arena.Low m := by
  obtain ⟨a, hx, rfl⟩ := define_ok.1 h
  exact ha.congr (variableDefined hx).declaredFunctions

theorem low_defineAll {ps : List (ValueType × Token)} {u : Unit}
    (h : defineAll ps c s = .ok u s') (ha : s.arena.Low m) : s'.arena.Low m := by
  induction ps generalizing s with
  | nil =>
    obtain rfl := defineAll_nil_ok.1 h
    exact ha
  | cons p ps ih =>
    obtain ⟨x, t, hx, h⟩ := defineAll_cons_ok.1 h
    exact ih h (low_define hx ha)

theorem low_functionDeclaration (hq : LowersBlock m k q) (hk : k ≤ m) (hm : 2 ≤ m)
    {f : FunctionId} (h : functionDeclaration q c s = .ok f s') (ha : s.arena.Low m) :
    s'.arena.Low m := by
  obtain ⟨-, returns, -, -, -, ps, t, hps, _, v, hd, g, w, hg, hbody⟩ :=
    functionDeclaration_ok.1 h
  obtain ⟨-, ht⟩ := parametersAt_of_ok hps
  rw [← ht] at ha
  have hv := low_defineAll hd ha.pushScope
  obtain ⟨b, hf, rfl⟩ := defineFunction_ok.1 hg
  -- Until it is given its own, the function has a body without statements.
  have hw := hv.push (functionDefined hf).declaredFunctions (Nat.le_of_succ_le hm)
  obtain ⟨-, body, x, hb, -, rfl⟩ | ⟨-, body, x, hb, -, rfl⟩ := hbody
  · obtain ⟨-, -, -, rfl, rfl⟩ := nativeBody_ok.1 hb
    exact hw.pushScope.setBody hm
  · obtain ⟨hbody, hx⟩ := hq hb hw
    exact hx.setBody (Nat.le_trans hbody hk)

theorem low_condition (hp : Lowers l p) (hr : ReadsChain 1 p) (h : condition p c s = .ok n s')
    (ha : s.arena.Low m) : n.height 0 ≤ l ∧ s'.arena.Low m := by
  obtain ⟨-, t, hn, -, rfl⟩ := condition_ok.1 h
  obtain ⟨_, -, ht⟩ := hr hn
  exact ⟨hp hn, ha.congr (congrArg Arena.declaredFunctions ht)⟩

theorem low_branch (hp : Lowers l p) (hr : ReadsChain 1 p) (hq : LowersBlock m k q)
    (h : branch q p c s = .ok n s') (ha : s.arena.Low m) :
    n.height 0 ≤ max l k + 1 ∧ s'.arena.Low m := by
  obtain ⟨-, test, t, ht, thenBody, u, hu, h⟩ := branch_ok.1 h
  obtain ⟨htest, hat⟩ := low_condition hp hr ht ha
  obtain ⟨hthen, hau⟩ := hq hu hat
  obtain ⟨-, elseBody, he, rfl⟩ | ⟨-, rfl, rfl⟩ := h
  · obtain ⟨helse, has⟩ := hq he hau
    refine ⟨Nat.succ_le_succ ?_, has⟩
    omega
  · refine ⟨Nat.succ_le_succ ?_, hau⟩
    omega

theorem low_whileLoop (hp : Lowers l p) (hr : ReadsChain 1 p) (hq : LowersBlock m k q)
    (h : whileLoop q p c s = .ok n s') (ha : s.arena.Low m) :
    n.height 0 ≤ max l k + 1 ∧ s'.arena.Low m := by
  obtain ⟨-, test, t, ht, body, hb, rfl⟩ := whileLoop_ok.1 h
  obtain ⟨htest, hat⟩ := low_condition hp hr ht ha
  obtain ⟨hbody, has⟩ := hq hb hat
  refine ⟨Nat.succ_le_succ ?_, has⟩
  omega

theorem low_forLoop (hp : Lowers l p) (hr : ReadsChain 1 p) (hq : LowersBlock m k q)
    (h : forLoop q p c s = .ok n s') (ha : s.arena.Low m) :
    n.height 0 ≤ max l k + 1 ∧ s'.arena.Low m := by
  obtain ⟨-, -, -, x, -, -, range, t, ht, -, body, hb, rfl⟩ := forLoop_ok.1 h
  obtain ⟨_, -, hat⟩ := hr ht
  have hrange := hp ht
  obtain ⟨hbody, has⟩ := hq hb (ha.congr (congrArg Arena.declaredFunctions hat))
  refine ⟨Nat.succ_le_succ ?_, has⟩
  omega

/-- What ends in a semicolon. -/
theorem low_terminated (h : terminated p c s = .ok o s')
    (hp : ∀ {n t}, p c s = .ok n t → n.height 0 ≤ k ∧ t.arena.Low m) :
    (∀ n ∈ o, n.height 0 ≤ k) ∧ s'.arena.Low m := by
  obtain ⟨n, t, hn, -, rfl, rfl⟩ := terminated_ok.1 h
  obtain ⟨hn, ht⟩ := hp hn
  exact ⟨fun x hx => by cases hx; exact hn, ht⟩

theorem low_statement (hp : Lowers l p) (hr : ReadsChain 1 p) (hq : LowersBlock m k q)
    (hk : k ≤ m) (hm : 2 ≤ m) (h : statement q p c s = .ok o s') (ha : s.arena.Low m) :
    (∀ n ∈ o, n.height 0 ≤ max l k + 1) ∧ s'.arena.Low m := by
  have hsome : ∀ {n : Node}, n.height 0 ≤ max l k + 1 ∧ s'.arena.Low m →
      (∀ x ∈ some n, x.height 0 ≤ max l k + 1) ∧ s'.arena.Low m :=
    fun h => ⟨fun x hx => by cases hx; exact h.1, h.2⟩
  have harena : ∀ {t u : Progress} {n}, p c t = .ok n u → t.arena.Low m → u.arena.Low m := by
    intro t u n hn ht
    obtain ⟨_, -, hu⟩ := hr hn
    exact ht.congr (congrArg Arena.declaredFunctions hu)
  have hl : l + 1 ≤ max l k + 1 := Nat.succ_le_succ (Nat.le_max_left l k)
  rw [statement_ok] at h
  cases h with
  | function _ h => exact ⟨nofun, low_functionDeclaration hq hk hm h ha⟩
  | block _ h =>
    obtain ⟨hb, hs⟩ := hq h ha
    exact hsome ⟨Nat.le_succ_of_le (Nat.le_trans hb (Nat.le_max_right l k)), hs⟩
  | branch _ h => exact hsome (low_branch hp hr hq h ha)
  | whileLoop _ h => exact hsome (low_whileLoop hp hr hq h ha)
  | forLoop _ h => exact hsome (low_forLoop hp hr hq h ha)
  | declare _ h =>
    refine low_terminated h fun hn => ?_
    obtain ⟨_, -, -, -, -, value, t, hv, x, ⟨a, hx, rfl⟩, rfl⟩ := variableDeclaration_ok.1 hn
    exact ⟨Nat.le_trans (Nat.succ_le_succ (hp hv)) hl,
      (harena hv ha).congr (variableDefined hx).declaredFunctions⟩
  | print _ h =>
    refine low_terminated h fun hn => ?_
    obtain ⟨-, -, r, hargs, rfl⟩ := printed_ok.1 hn
    obtain ⟨_, -, ht⟩ := argumentsAt_of_ok hr hargs
    exact ⟨Nat.le_trans (Nat.succ_le_succ (low_arguments hp hargs)) hl,
      ha.congr (congrArg Arena.declaredFunctions ht)⟩
  | giveBack _ h =>
    refine low_terminated h fun hn => ?_
    obtain ⟨-, ⟨-, rfl, rfl⟩ | ⟨-, value, hv, rfl⟩⟩ := returned_ok.1 hn
    · exact ⟨Nat.succ_le_succ (Nat.zero_le _), ha⟩
    · exact ⟨Nat.le_trans (Nat.succ_le_succ (hp hv)) hl, harena hv ha⟩
  | assign _ _ h =>
    refine low_terminated h fun hn => ?_
    obtain ⟨-, x, -, value, hv, o, -, rfl⟩ := assignment_ok.1 hn
    exact ⟨Nat.le_trans (Nat.succ_le_succ (hp hv)) hl, harena hv ha⟩
  | expression _ _ _ h =>
    refine low_terminated h fun hn => ?_
    exact ⟨Nat.le_trans (hp hn) (Nat.le_of_succ_le hl), harena hn ha⟩

/-- A loop whose end is looked for without a change of the arena. -/
theorem low_items {close : Parser (Option Location)} {p : Parser (Option Node)}
    (hclose : ∀ {c s l s'}, close c s = .ok l s' → s'.arena = s.arena)
    (hp : ∀ {c s o s'}, p c s = .ok o s' → s.arena.Low m →
      (∀ n ∈ o, n.height 0 ≤ k) ∧ s'.arena.Low m)
    {r : List Node × Location} (h : many close (statementItem p) c s = .ok r s')
    (ha : s.arena.Low m) : heightOf 0 r.1 ≤ k ∧ s'.arena.Low m := by
  have hclosed : ∀ {s t : Progress} {l}, close c s = .ok l t → s.arena.Low m → t.arena.Low m :=
    fun h hs => hs.congr (congrArg Arena.declaredFunctions (hclose h))
  refine many_rule (fun s ns _ s' => s.arena.Low m → heightOf 0 ns ≤ k ∧ s'.arena.Low m)
    ?_ ?_ h ha
  · exact fun h hs => ⟨Nat.zero_le k, hclosed h hs⟩
  · intro s t ms u ns l s' hc hm hns hs
    have ht := hclosed hc hs
    obtain ⟨-, rfl, rfl⟩ | ⟨-, o, ho, rfl⟩ := statementItem_ok.1 hm
    · exact hns ht
    · obtain ⟨hlow, hu⟩ := hp ho ht
      obtain ⟨hrest, hs'⟩ := hns hu
      refine ⟨?_, hs'⟩
      cases o with
      | none => exact hrest
      | some n => exact Nat.max_le.2 ⟨hlow n rfl, hrest⟩

/-- A statement is higher than the blocks in it by one; expressions are lower than that. -/
theorem low_statement_levels {levels : Nat} (hq : LowersBlock m (2 * levels) (block levels))
    (hm : 2 * levels + 2 ≤ m) (h : statement (block levels) (expression levels 1) c s = .ok o s')
    (ha : s.arena.Low m) : (∀ n ∈ o, n.height 0 ≤ 2 * levels + 1) ∧ s'.arena.Low m := by
  have hlow := low_statement ((lowers_levels levels).1 1) (readsChain_expression levels 1) hq
    (by omega) (by omega) h ha
  rwa [Nat.max_eq_right (by omega)] at hlow

/-- By induction on the levels of nesting that are left: a block adds one to the height, and the
statement around it another. -/
theorem lowersBlock_block (levels : Nat) (h : 2 * levels + 2 ≤ m) :
    LowersBlock m (2 * levels) (block levels) := by
  induction levels with
  | zero =>
    intro c s b s' hb
    simp only [block, tooDeep, failHere, bind_ok, fail_ok, and_false, exists_false] at hb
  | succ levels ih =>
    intro c s b s' hb ha
    rw [block] at hb
    obtain ⟨-, r, hr, rfl⟩ := braced_ok.1 hb
    have hclose : ∀ {c s l s'}, braceClose c s = .ok l s' → s'.arena = s.arena := by
      intro c s l s' h
      obtain ⟨-, -, rfl⟩ | ⟨-, -, rfl⟩ := braceClose_ok.1 h <;> rfl
    obtain ⟨hbody, hs'⟩ := low_items hclose (low_statement_levels (ih (by omega)) (by omega)) hr
      ha.pushScope
    exact ⟨Nat.succ_le_succ hbody, hs'⟩

theorem low_topLevel {limit : Nat} {f : FunctionId} (h : topLevel limit c s = .ok f s')
    (ha : s.arena.Low (2 * limit + 2)) : s'.arena.Low (2 * limit + 2) := by
  obtain ⟨r, t, hr, -, rfl⟩ := topLevel_ok.1 h
  have hclose : ∀ {c s l s'}, endClose c s = .ok l s' → s'.arena = s.arena := by
    intro c s l s' h
    obtain ⟨-, -, rfl⟩ | ⟨-, -, rfl⟩ := endClose_ok.1 h <;> rfl
  have hblock : LowersBlock (2 * limit + 2) (2 * limit) (block limit) :=
    lowersBlock_block limit (Nat.le_refl _)
  obtain ⟨hbody, ht⟩ := low_items hclose (low_statement_levels hblock (Nat.le_refl _)) hr ha
  exact ht.push rfl (Nat.succ_le_succ hbody)

end Statements

end Parser

/-- With `limit` levels of nesting, no body of a program is higher than `2 * limit + 2` as long as
steps to the left operand of an operation do not count. A body in which no more than `N` operations
in a row are each the left operand of the one before is at most `N + 1` times as high. -/
theorem limit_bounds_height {limit : Nat} {source : String} {p : Program}
    (h : parse limit source = .ok p) (f : FunctionId) :
    (p.arena.functionAt f).body.height 0 ≤ 2 * limit + 2 ∧
    ∀ N, (∀ o ∈ (p.arena.functionAt f).body.occurrences, o.2.leftRun ≤ N) →
      (p.arena.functionAt f).body.height 1 ≤ (2 * limit + 2) * (N + 1) := by
  obtain ⟨T, t, -, htop, -⟩ := Parser.parse_ok.1 h
  have hlow := Parser.low_topLevel htop (Low.fresh (Nat.le_add_left 1 (2 * limit + 1))) f
  refine ⟨hlow, fun N hN => ?_⟩
  have hheight := Block.height_add_le _ hN
  exact Nat.le_trans (Nat.le_of_add_right_le hheight) (Nat.mul_le_mul_right (N + 1) hlow)

/-- Two loops, one inside the other, are as high as two levels allow. -/
theorem limit_bounds_height_loops :
    ∃ p, parse 2 "int x = 1 + 1 - 1; while (x) \x7b while (x) \x7b return; \x7d \x7d" = .ok p ∧
      p.topLevel.body.height 0 = 2 * 2 + 2 ∧ p.topLevel.body.height 0 ≤ 2 * 2 + 2 ∧
      p.topLevel.body.height 1 ≤ (2 * 2 + 2) * (2 + 1) := by
  have h : (match parse 2 "int x = 1 + 1 - 1; while (x) \x7b while (x) \x7b return; \x7d \x7d" with
      | .ok p => decide (p.topLevel.body.height 0 = 2 * 2 + 2 ∧
          ∀ o ∈ p.topLevel.body.occurrences, o.2.leftRun ≤ 2)
      | .error _ => false) = true := by decide +kernel
  split at h
  · next p hp =>
    obtain ⟨hheight, hruns⟩ := of_decide_eq_true h
    obtain ⟨hlow, hhigh⟩ := limit_bounds_height hp p.top
    exact ⟨p, hp, hheight, hlow, hhigh 2 hruns⟩
  · contradiction

section Sums

/-- The tokens of `k` ones, each behind a plus, and of a semicolon. -/
def addends : Nat → List Token
  | 0 => [.ofKind Symbol.semicolon .unknown]
  | k + 1 => .ofKind Symbol.plus .unknown :: ⟨.intLiteral, "1", .unknown⟩ :: addends k

/-- The tokens of a sum of `k + 1` ones as a statement. -/
def sumTokens (k : Nat) : List Token := ⟨.intLiteral, "1", .unknown⟩ :: addends k

theorem wellFormed_one : Token.WellFormed ⟨.intLiteral, "1", .unknown⟩ :=
  ⟨isNumeral_digits (List.cons_ne_nil _ _) (List.forall_mem_singleton.2 rfl), rfl⟩

theorem wellFormed_sumTokens (k : Nat) : ∀ t ∈ sumTokens k, t.WellFormed := by
  have haddends : ∀ t ∈ addends k, t.WellFormed := by
    induction k with
    | zero => exact List.forall_mem_singleton.2 rfl
    | succ k ih => exact List.forall_mem_cons.2 ⟨rfl, List.forall_mem_cons.2 ⟨wellFormed_one, ih⟩⟩
  exact List.forall_mem_cons.2 ⟨wellFormed_one, haddends⟩

variable {T : TokenList} {c : Context} {a : Arena} {i k limit levels : Nat}

theorem content_drop {t : Token} {ts : List Token}
    (h : (T.toList.drop i).map Token.content = (t :: ts).map Token.content) :
    i < T.size ∧ (T.get i).kind = t.kind ∧ (T.get i).text = t.text ∧
      (T.toList.drop (i + 1)).map Token.content = ts.map Token.content := by
  have hi : i < T.size := by
    by_contra hi
    have hnil : T.toList.drop i = [] := List.drop_eq_nil_of_le (Nat.le_of_not_lt hi)
    rw [hnil] at h
    contradiction
  rw [TokenList.drop_eq hi, List.map_cons, List.map_cons] at h
  obtain ⟨hhead, htail⟩ := List.cons_eq_cons.1 h
  obtain ⟨hkind, htext⟩ := Prod.mk.inj hhead
  exact ⟨hi, hkind, htext, htail⟩

theorem content_length {ts : List Token}
    (h : (T.toList.drop i).map Token.content = ts.map Token.content) :
    T.size - i = ts.length := by
  have heq := congrArg List.length h
  rwa [List.length_map, List.length_map, List.length_drop] at heq

theorem le_length_addends (k : Nat) : k ≤ (addends k).length := by
  induction k with
  | zero => exact Nat.zero_le _
  | succ k ih => exact Nat.succ_le_succ (Nat.le_succ_of_le ih)

namespace Parser

theorem unary_one (hk : (c.tokens.get i).kind = .intLiteral) (ht : (c.tokens.get i).text = "1") :
    unary levels c ⟨i, a⟩ = .ok (.int 1 (.single (c.tokens.get i).location)) ⟨i + 1, a⟩ := by
  have hint : intLiteral c ⟨i, a⟩ =
      .ok (.int 1 (.single (c.tokens.get i).location)) ⟨i + 1, a⟩ :=
    intLiteral_ok.2 ⟨hk, 1, by rw [ht]; decide, rfl, rfl⟩
  cases levels with
  | zero =>
    rw [unary]
    exact operand_ok.2 (.int hk hint)
  | succ levels =>
    rw [unary_succ]
    exact operand_ok.2 (.int hk hint)

/-- Every further addend is folded in at the same level, and makes the tree one higher. -/
theorem climb_addends {bound : Nat} (left : Node) (hk : k ≤ bound)
    (h : (c.tokens.toList.drop i).map Token.content = (addends k).map Token.content) :
    ∃ n, climb (expression 1) 1 bound left c ⟨i, a⟩ = .ok n ⟨i + 2 * k, a⟩ ∧
      left.height 1 + k ≤ n.height 1 ∧
      (c.tokens.toList.drop (i + 2 * k)).map Token.content = (addends 0).map Token.content := by
  induction k generalizing i bound left with
  | zero =>
    obtain ⟨-, hkind, -⟩ := content_drop h
    refine ⟨left, climb_stop ?_, Nat.le_refl _, h⟩
    rw [hkind]
    decide
  | succ k ih =>
    obtain ⟨-, hplus, -, h⟩ := content_drop h
    obtain ⟨-, hone, htext, h⟩ := content_drop h
    obtain ⟨bound, rfl⟩ : ∃ b, bound = b + 1 := ⟨bound - 1, by omega⟩
    have hstop : ¬ ((c.tokens.get (i + 1 + 1)).kind.isBinary ∧
        13 ≤ (c.tokens.get (i + 1 + 1)).kind.precedence) := by
      cases k with
      | zero =>
        obtain ⟨-, hkind, -⟩ := content_drop h
        rw [hkind]
        decide
      | succ k =>
        obtain ⟨-, hkind, -⟩ := content_drop h
        rw [hkind]
        decide
    have hright : expression 1 13 c ⟨i + 1, a⟩ =
        .ok (.int 1 (.single (c.tokens.get (i + 1)).location)) ⟨i + 1 + 1, a⟩ := by
      rw [expression]
      exact chain_ok.2 ⟨_, _, unary_one hone htext, climb_stop hstop⟩
    obtain ⟨n, hn, hheight, hrest⟩ := ih (.binary .add left
      (.int 1 (.single (c.tokens.get (i + 1)).location))
      ⟨left.span.start, (c.tokens.get (i + 1)).location⟩) (Nat.le_of_succ_le_succ hk) h
    have hslot : i + 1 + 1 + 2 * k = i + 2 * (k + 1) := by omega
    rw [hslot] at hn hrest
    refine ⟨n, ?_, ?_, hrest⟩
    · refine climb_succ_ok.2 (.inl ⟨?_, _, _, ?_, .add, hplus, hn⟩)
      · rw [hplus]
        decide
      · rw [hplus]
        exact hright
    · have hleft : left.height 1 + 1 ≤ max (left.height 1 + 1) (1 + 1) := Nat.le_max_left ..
      simp only [Node.height] at hheight
      omega

theorem topLevel_run {t u : Progress} {ns : List Node} {finish : Location}
    (h : many endClose (statementItem (statement (block limit) (expression limit 1))) c t =
      .ok (ns, finish) u) :
    ∃ f v, topLevel limit c t = .ok f v ∧ f.index < v.arena.declaredFunctions.size ∧
      (v.arena.functionAt f).body = ⟨c.scope, ns, (c.tokens.get t.position).location, finish⟩ := by
  refine ⟨_, _, topLevel_ok.2 ⟨_, _, h, rfl, rfl⟩, ?_, ?_⟩
  · simp [addFunction]
  · simp only [functionAt, addFunction, Array.getElem?_push_size, Option.getD_some]

theorem topLevel_sum
    (h : c.tokens.toList.map Token.content = (sumTokens k).map Token.content) :
    ∃ f t, topLevel 2 c ⟨0, a⟩ = .ok f t ∧ f.index < t.arena.declaredFunctions.size ∧
      k < (t.arena.functionAt f).body.height 1 := by
  obtain ⟨hlt, hone, htext, haddends⟩ := content_drop (i := 0) h
  have hk : k ≤ c.tokens.size - 1 := by
    have hlength := content_length haddends
    have hle := le_length_addends k
    omega
  obtain ⟨n, hn, hheight, hlast⟩ := climb_addends (c := c) (a := a)
    (.int 1 (.single (c.tokens.get 0).location)) hk haddends
  obtain ⟨-, hsemicolon, -, hend⟩ := content_drop hlast
  have hnode : expression 2 1 c ⟨0, a⟩ = .ok n ⟨0 + 1 + 2 * k, a⟩ := by
    rw [expression]
    exact chain_ok.2 ⟨_, _, unary_one hone htext, hn⟩
  have hstatement : statementItem (statement (block 2) (expression 2 1)) c ⟨0, a⟩ =
      .ok [n] ⟨0 + 1 + 2 * k + 1, a⟩ := by
    refine statementItem_ok.2 (.inr ⟨by rw [hone]; decide, some n, ?_, rfl⟩)
    rw [statement_ok]
    refine .expression (by rw [hone]; decide) (by rw [hone]; decide) (by rw [hone]; exact nofun) ?_
    exact terminated_ok.2 ⟨n, _, hnode, hsemicolon, rfl, rfl⟩
  have hfinish : (c.tokens.get (0 + 1 + 2 * k + 1)).kind = .endOfInput := by
    have hlt := (content_drop hlast).1
    have hlength := content_length hend
    have hsize : c.tokens.size = 0 + 1 + 2 * k + 1 := by
      rw [List.length_nil] at hlength
      omega
    rw [← hsize, TokenList.get_size]
    rfl
  have hmany : many endClose (statementItem (statement (block 2) (expression 2 1))) c ⟨0, a⟩ =
      .ok ([n] ++ [], (c.tokens.get (0 + 1 + 2 * k + 1)).location) ⟨0 + 1 + 2 * k + 1, a⟩ :=
    many_cons [n] (endClose_ok.2 (.inr ⟨by rw [hone]; decide, rfl, rfl⟩)) hstatement
      (Nat.succ_pos _) hlt (many_nil (endClose_ok.2 (.inl ⟨hfinish, rfl, rfl⟩)))
  obtain ⟨f, t, htop, hf, hbody⟩ := topLevel_run hmany
  refine ⟨f, t, htop, hf, ?_⟩
  rw [hbody, List.append_nil, Block.height, heightOf_singleton]
  omega

end Parser

/-- Sums of any length are read within two levels, and are as high as they are long. -/
theorem height_unbounded : ¬ ∀ limit, ∃ bound, ∀ source p, parse limit source = .ok p →
    ∀ f : FunctionId, f.index < p.arena.declaredFunctions.size →
      (p.arena.functionAt f).body.height 1 ≤ bound := by
  intro h
  obtain ⟨bound, h⟩ := h 2
  obtain ⟨T, hT, hcontent⟩ := tokenize_transcript (wellFormed_sumTokens bound)
  obtain ⟨f, t, htop, hf, hlt⟩ := Parser.topLevel_sum (c := ⟨T, 2, Arena.root⟩)
    (a := .fresh) hcontent
  have hparse : parse 2 (Token.transcript (sumTokens bound)) = .ok ⟨t.arena, f, Arena.root⟩ :=
    Parser.parse_ok.2 ⟨T, t.position, hT, htop, rfl⟩
  exact Nat.not_le_of_lt hlt (h _ _ hparse f hf)

end Sums

end ScriptSyntax
