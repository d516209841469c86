import ScriptSyntax.Proofs.Grammar.Following
import ScriptSyntax.Proofs.Grammar.Front
import ScriptSyntax.Proofs.Grammar.Soundness

/-!
What the rules allow, the parser reads, if it may nest deeper than the tokens left could make it.
-/

namespace ScriptSyntax

namespace Parser

variable {α β : Type} {c : Context} {s s' : Progress}

/-- A loop that ends within a bound ends in the same way within a larger one. -/
theorem manyFrom_mono {close : Parser (Option β)} {item : Parser (List α)} {m n : Nat}
    (hmn : m ≤ n) {r : List α × β} (h : manyFrom close item m c s = .ok r s') :
    manyFrom close item n c s = .ok r s' := by
  induction m generalizing n s r with
  | zero =>
    obtain ⟨finish, hc, rfl⟩ | ⟨_, _, _, _, _, _, hm, _⟩ := closeOr_ok.1 h
    · cases n <;> exact closeOr_ok.2 (Or.inl ⟨finish, hc, rfl⟩)
    · obtain ⟨_, _, _, hm⟩ := bind_ok.1 hm
      exact (fail_ok.1 hm).elim
  | succ m ih =>
    obtain ⟨k, rfl⟩ : ∃ k, n = k + 1 := ⟨n - 1, by omega⟩
    obtain ⟨finish, hc, rfl⟩ | ⟨t, items, u, rest, hc, hi, hm, rfl⟩ := closeOr_ok.1 h
    · exact closeOr_ok.2 (Or.inl ⟨finish, hc, rfl⟩)
    · exact closeOr_ok.2 (Or.inr ⟨t, items, u, rest, hc, hi, ih (by omega) hm, rfl⟩)

theorem many_nil {close : Parser (Option β)} {item : Parser (List α)} {finish : β}
    (h : close c s = .ok (some finish) s') : many close item c s = .ok ([], finish) s' := by
  rw [many_ok]
  cases c.tokens.size - s.position <;> exact closeOr_ok.2 (Or.inl ⟨finish, h, rfl⟩)

theorem many_cons {close : Parser (Option β)} {item : Parser (List α)} {t u : Progress}
    (items : List α) {rest : List α} {finish : β} (hc : close c s = .ok none t)
    (hi : item c t = .ok items u) (hlt : s.position < u.position)
    (hs : s.position < c.tokens.size) (hm : many close item c u = .ok (rest, finish) s') :
    many close item c s = .ok (items ++ rest, finish) s' := by
  rw [many_ok] at hm ⊢
  obtain ⟨k, hk⟩ : ∃ k, c.tokens.size - s.position = k + 1 :=
    ⟨c.tokens.size - s.position - 1, by omega⟩
  rw [hk]
  exact closeOr_ok.2 (Or.inr ⟨t, items, u, _, hc, hi, manyFrom_mono (by omega) hm, rfl⟩)

end Parser

variable {T : TokenList}

theorem UnaryOperator.not_or_minus (o : UnaryOperator) :
    (o.symbol : TokenKind) = Symbol.not ∨ (o.symbol : TokenKind) = Symbol.minus := by
  cases o
  · exact Or.inl rfl
  · exact Or.inr rfl

theorem BinaryOperator.isBinary (o : BinaryOperator) : (o.symbol : TokenKind).isBinary := by
  cases o <;> rfl

theorem AssignOperator.isAssignment (o : AssignOperator) :
    (o.symbol : TokenKind).isAssignment := by
  cases o <;> rfl

open ScriptSyntax.Parser

theorem SeparatorAt.run {i j a limit s} (h : SeparatorAt T i j) :
    separator ⟨T, limit, s⟩ ⟨i, a⟩ = .ok () ⟨j, a⟩ := by
  cases h with
  | comma h => exact separator_ok.2 (Or.inl ⟨h, rfl⟩)
  | last h => exact separator_ok.2 (Or.inr ⟨h, rfl⟩)

-- By induction on the derivation. What is nested stands behind a token, and an expression has one
-- level more than its operands need, so the levels left never fall behind the tokens left.
mutual

theorem OperandAt.run {a s i e n j} (h : OperandAt T a s i e n j) (levels limit : Nat)
    (hl : T.size ≤ levels + i) : unary levels ⟨T, limit, s⟩ ⟨i, a⟩ = .ok n ⟨j, a⟩ := by
  have hlt := h.lt
  have hle := h.le_size
  obtain ⟨k, rfl⟩ : ∃ k, levels = k + 1 := ⟨levels - 1, by omega⟩
  rw [unary_succ, operand_ok]
  match h with
  | .int hk hv => exact .int hk (intLiteral_ok.2 ⟨hk, _, hv, rfl, rfl⟩)
  | .double hk hv => exact .double hk (doubleLiteral_ok.2 ⟨hk, _, hv, rfl, rfl⟩)
  | .string hk => exact .string hk (stringLiteral_ok.2 ⟨rfl, rfl⟩)
  | .load hk hn hx => exact .load hk hn (load_ok.2 ⟨hk, _, hx, rfl, rfl⟩)
  | .call hk hp hes =>
    have hes := hes.run (k + 1) limit (by omega)
    exact .call hk hp (call_ok.2 ⟨hk, hp, _, hes, rfl⟩)
  | .unary (o := o) hk he =>
    have he := he.run k limit (by omega)
    exact .signed (hk ▸ o.not_or_minus) (applied_ok.2 ⟨_, he, o, hk, rfl⟩)
  | .parenthesised hk he hr =>
    have he := he.run (k + 1) limit (by omega)
    exact .parenthesised hk (parenthesised_ok.2 ⟨_, he, hr, rfl⟩)

theorem ChainAt.run {a s least i e n j} (h : ChainAt T a s least i e n j)
    (levels limit : Nat) (hl : T.size < levels + i) :
    expression levels least ⟨T, limit, s⟩ ⟨i, a⟩ = .ok n ⟨j, a⟩ := by
  have hlt := h.lt
  have hle := h.le_size
  obtain ⟨k, rfl⟩ : ∃ k, levels = k + 1 := ⟨levels - 1, by omega⟩
  rw [expression, chain_ok]
  match h with
  | .mk h₀ h₁ =>
    have := h₀.lt
    exact ⟨_, _, h₀.run k limit (by omega), h₁.run k limit _ (by dsimp only; omega) (by omega)⟩

theorem ClimbAt.run {a s least i e₀ n₀ e n j} (h : ClimbAt T a s least i e₀ n₀ e n j)
    (levels limit bound : Nat) (hb : T.size ≤ bound + i)
    (hl : T.size ≤ levels + i) :
    climb (expression levels) least bound n₀ ⟨T, limit, s⟩ ⟨i, a⟩ = .ok n ⟨j, a⟩ := by
  match h with
  | .done hk =>
    cases bound with
    | zero => exact climb_zero_ok.2 ⟨rfl, rfl⟩
    | succ bound => exact climb_succ_ok.2 (Or.inr ⟨hk, rfl, rfl⟩)
  | .more (o := o) hk hp h₁ h₂ =>
    have := TokenList.lt_size_of_symbol hk
    have := h₁.lt
    obtain ⟨k, rfl⟩ : ∃ k, bound = k + 1 := ⟨bound - 1, by omega⟩
    have hr := h₁.run levels limit (by omega)
    have hm := h₂.run levels limit k (by omega) (by omega)
    exact climb_succ_ok.2 (Or.inl ⟨⟨hk ▸ o.isBinary, hk ▸ hp⟩, _, _, hk ▸ hr, o, hk, hm⟩)

theorem ArgumentsAt.run {a s i es ns l j} (h : ArgumentsAt T a s i es ns l j)
    (levels limit : Nat) (hl : T.size < levels + i) :
    arguments (expression levels 1) ⟨T, limit, s⟩ ⟨i, a⟩ = .ok (ns, l) ⟨j, a⟩ := by
  match h with
  | .done hk => exact many_nil (parenClose_ok.2 (Or.inl ⟨hk, rfl, rfl⟩))
  | .more he hs hes =>
    have hlt := he.lt
    have hle := he.le_size
    have := hs.le
    have hk : (T.get i).kind ≠ Symbol.rightParen := he.front_ne rfl
    have he := he.run levels limit hl
    refine many_cons [_] (parenClose_ok.2 (Or.inr ⟨hk, rfl, rfl⟩))
      (bind_ok.2 ⟨_, _, he, bind_ok.2 ⟨_, _, hs.run, pure_ok.2 ⟨rfl, rfl⟩⟩⟩) ?_ ?_
      (hes.run levels limit (by omega))
    · dsimp only; omega
    · dsimp only; omega

end

theorem ParametersAt.run {i ps j} (h : ParametersAt T i ps j) (a : Arena) (limit : Nat)
    (s : ScopeId) :
    ∃ l, many parenClose (do return [← parameter]) ⟨T, limit, s⟩ ⟨i, a⟩ = .ok (ps, l) ⟨j, a⟩ := by
  induction h with
  | done hk => exact ⟨_, many_nil (parenClose_ok.2 (Or.inl ⟨hk, rfl, rfl⟩))⟩
  | @more i t j ps k ht hv hi hs hps ih =>
    obtain ⟨l, ih⟩ := ih
    have hlt := TokenList.lt_size_of_type ht
    have := hs.le
    have hk : (T.get i).kind ≠ Symbol.rightParen := fun hk => by
      rw [hk] at ht
      exact nomatch ht
    refine ⟨l, many_cons [_] (parenClose_ok.2 (Or.inr ⟨hk, rfl, rfl⟩))
      (bind_ok.2 ⟨_, _, parameter_ok.2 ⟨t, ht, hv, hi, _, hs.run, rfl⟩,
        pure_ok.2 ⟨rfl, rfl⟩⟩) ?_ hlt ih⟩
    dsimp only
    omega

theorem DefinesAll.run {limit i q a ps b} (h : DefinesAll q a ps b) :
    defineAll ps ⟨T, limit, q⟩ ⟨i, a⟩ = .ok () ⟨i, b⟩ := by
  induction h with
  | nil => exact defineAll_nil_ok.2 rfl
  | cons ha _ ih => exact defineAll_cons_ok.2 ⟨_, _, define_ok.2 ⟨_, ha, rfl⟩, ih⟩

theorem condition_run {a s i e n j} {levels limit : Nat}
    (hk : (T.get i).kind = Symbol.leftParen) (h : ChainAt T a s 1 (i + 1) e n j)
    (hr : (T.get j).kind = Symbol.rightParen) (hl : T.size < levels + i) :
    condition (expression levels 1) ⟨T, limit, s⟩ ⟨i, a⟩ = .ok n ⟨j + 1, a⟩ :=
  condition_ok.2 ⟨hk, _, h.run levels limit (by omega), hr, rfl⟩

theorem HeadAt.run_function {s i a g f q j b body k c limit} {p : Parser Block}
    (h : HeadAt T s i a g f q j b) (hn : (T.get j).kind = Symbol.leftBrace)
    (hb : p ⟨T, limit, q⟩ ⟨j, b⟩ = .ok body ⟨k, c⟩) :
    functionDeclaration p ⟨T, limit, s⟩ ⟨i, a⟩ =
      .ok f ⟨k, c.setBody f body ⟨(T.get i).location, body.span.finish⟩⟩ := by
  cases h with
  | mk hk ht hi hp hps hq hd hf =>
    cases hq
    obtain ⟨l, hps⟩ := hps.run a limit s
    have hn : (T.get j).kind ≠ Keyword.nativeKw := by rw [hn]; exact nofun
    exact functionDeclaration_ok.2 ⟨hk, _, ht, hi, hp, _, _, hps, (), _, hd.run, _, _,
      defineFunction_ok.2 ⟨_, hf, rfl⟩, Or.inr ⟨hn, _, _, hb, rfl, rfl⟩⟩

theorem HeadAt.run_native {s i a g f q j b r c limit} {p : Parser Block}
    (h : HeadAt T s i a g f q j b) (hn : (T.get j).kind = Keyword.nativeKw)
    (ht : (T.get (j + 1)).kind = .stringLiteral) (hs : (T.get (j + 2)).kind = Symbol.semicolon)
    (hr : b.pushScope (some q) = (r, c)) :
    functionDeclaration p ⟨T, limit, s⟩ ⟨i, a⟩ =
      .ok f ⟨j + 3, c.setBody f (nativeBlock g (T.get (j + 1)).text r
          ⟨(T.get j).location, (T.get (j + 2)).location⟩)
        ⟨(T.get i).location, (T.get (j + 2)).location⟩⟩ := by
  cases h with
  | mk hk ht' hi hp hps hq hd hf =>
    cases hq
    cases hr
    obtain ⟨l, hps⟩ := hps.run a limit s
    exact functionDeclaration_ok.2 ⟨hk, _, ht', hi, hp, _, _, hps, (), _, hd.run, _, _,
      defineFunction_ok.2 ⟨_, hf, rfl⟩,
      Or.inl ⟨hn, _, _, nativeBody_ok.2 ⟨hn, ht, hs, rfl, rfl⟩, rfl, rfl⟩⟩

/-! A list of statements goes on in front of a semicolon and of a statement. -/

theorem braceClose_none {limit s} {t : Progress}
    (h : (T.get t.position).kind = Symbol.semicolon ∨ (T.get t.position).kind.startsStatement) :
    braceClose ⟨T, limit, s⟩ t = .ok none t := by
  refine braceClose_ok.2 (.inr ⟨?_, rfl, rfl⟩)
  rcases h with h | h
  · rw [h]
    exact ⟨nofun, nofun⟩
  · exact ⟨(TokenKind.startsStatement_ne h).1, (TokenKind.startsStatement_ne h).2.2.1⟩

theorem endClose_none {limit s} {t : Progress}
    (h : (T.get t.position).kind = Symbol.semicolon ∨ (T.get t.position).kind.startsStatement) :
    endClose ⟨T, limit, s⟩ t = .ok none t := by
  refine endClose_ok.2 (.inr ⟨?_, rfl, rfl⟩)
  rcases h with h | h
  · rw [h]
    exact nofun
  · exact (TokenKind.startsStatement_ne h).2.2.1

-- As for expressions. Which alternative of the parser is taken is read off the first tokens, which
-- each rule names.
mutual

theorem StatementAt.run {s i a c o j b} (h : StatementAt T s i a c o j b)
    (levels limit : Nat) (hl : T.size < levels + i) :
    statement (block levels) (expression levels 1) ⟨T, limit, s⟩ ⟨i, a⟩ = .ok o ⟨j, b⟩ := by
  rw [statement_ok]
  match h with
  | .expression hk hi he hs =>
    have hb : (T.get i).kind ≠ Symbol.leftBrace := he.front_ne rfl
    exact .expression hk hb hi (terminated_ok.2 ⟨_, _, he.run levels limit hl, hs, rfl, rfl⟩)
  | .declare hk hv hi ha he hd hs =>
    have ht : (T.get i).kind.isTypeName := by rw [← ValueType.isSome_ofKind?, hk]; rfl
    have hr := (variableDeclaration_ok (c := ⟨T, limit, s⟩) (s := ⟨i, a⟩)).2
      ⟨_, hk, hv, hi, ha, _, _, he.run levels limit (by omega), _, ⟨_, hd, rfl⟩, rfl⟩
    exact .declare ht (terminated_ok.2 ⟨_, _, hr, hs, rfl, rfl⟩)
  | .assign (o := o) hk hx ho he hs =>
    have hr := (assignment_ok (c := ⟨T, limit, s⟩) (s := ⟨i, a⟩)).2
      ⟨hk, _, hx, _, he.run levels limit (by omega), o, ho, rfl⟩
    exact .assign hk (by rw [ho]; exact o.isAssignment) (terminated_ok.2 ⟨_, _, hr, hs, rfl, rfl⟩)
  | .print hk hp hes hs =>
    have hr := (printed_ok (c := ⟨T, limit, s⟩) (s := ⟨i, a⟩)).2
      ⟨hk, hp, _, hes.run levels limit (by omega), rfl⟩
    exact .print hk (terminated_ok.2 ⟨_, _, hr, hs, rfl, rfl⟩)
  | .giveBackNothing hk hs =>
    have hr := (returned_ok (p := expression levels 1) (c := ⟨T, limit, s⟩) (s := ⟨i, a⟩)).2
      ⟨hk, Or.inl ⟨hs, rfl, rfl⟩⟩
    exact .giveBack hk (terminated_ok.2 ⟨_, _, hr, hs, rfl, rfl⟩)
  | .giveBack hk he hs =>
    have hn : (T.get (i + 1)).kind ≠ Symbol.semicolon := he.front_ne rfl
    have hr := (returned_ok (c := ⟨T, limit, s⟩) (s := ⟨i, a⟩)).2
      ⟨hk, Or.inr ⟨hn, _, he.run levels limit (by omega), rfl⟩⟩
    exact .giveBack hk (terminated_ok.2 ⟨_, _, hr, hs, rfl, rfl⟩)
  | .block hb => exact .block hb.starts (hb.run levels limit hl)
  | .branch hk hp he hr hb hn =>
    have := he.lt
    have hc : T.size < levels + (i + 1) := by omega
    have hb := hb.run levels limit (by omega)
    exact .branch hk (branch_ok.2 ⟨hk, _, _, condition_run hp he hr hc, _, _, hb,
      Or.inr ⟨hn, rfl, rfl⟩⟩)
  | .branchElse hk hp he hr hb hn hb' =>
    have := he.lt
    have hc : T.size < levels + (i + 1) := by omega
    have := hb.lt
    have hb := hb.run levels limit (by omega)
    have hb' := hb'.run levels limit (by omega)
    exact .branch hk (branch_ok.2 ⟨hk, _, _, condition_run hp he hr hc, _, _, hb,
      Or.inl ⟨hn, _, hb', rfl⟩⟩)
  | .whileLoop hk hp he hr hb =>
    have := he.lt
    have hc : T.size < levels + (i + 1) := by omega
    have hb := hb.run levels limit (by omega)
    exact .whileLoop hk (whileLoop_ok.2 ⟨hk, _, _, condition_run hp he hr hc, _, hb, rfl⟩)
  | .forLoop hk hp hi hx hn he hr hb =>
    have := he.lt
    have hb := hb.run levels limit (by omega)
    exact .forLoop hk (forLoop_ok.2 ⟨hk, hp, hi, _, hx, hn, _, _,
      he.run levels limit (by omega), hr, _, hb, rfl⟩)
  | .function hh hb =>
    have := hh.lt
    exact .function hh.starts (hh.run_function hb.starts (hb.run levels limit (by omega)))
  | .native hh hn ht hs hr => exact .function hh.starts (hh.run_native hn ht hs hr)

/-- A list of statements is read up to its end by any `close` that goes on in front of one. -/
theorem ItemsAt.run {s i a cs ns j b l s'} (h : ItemsAt T s i a cs ns j b)
    (levels limit : Nat) {close : Parser (Option Location)}
    (hclose : ∀ {t : Progress}, (T.get t.position).kind = Symbol.semicolon ∨
      (T.get t.position).kind.startsStatement → close ⟨T, limit, s⟩ t = .ok none t)
    (hl : T.size < levels + i)
    (hend : close ⟨T, limit, s⟩ ⟨j, b⟩ = .ok (some l) s') :
    many close (statementItem (statement (block levels) (expression levels 1)))
      ⟨T, limit, s⟩ ⟨i, a⟩ = .ok (ns, l) s' := by
  match h with
  | .nil => exact many_nil hend
  | .semicolon hk h =>
    have hm := h.run levels limit hclose (by omega) hend
    exact many_cons [] (hclose (Or.inl hk))
      (statementItem_ok.2 (Or.inl ⟨hk, rfl, rfl⟩)) (by dsimp only; omega)
      (TokenList.lt_size_of_symbol hk) hm
  | .cons h₀ h =>
    have hlt := h₀.lt
    have hle := h₀.le_size
    have hst := h₀.starts
    have hk := (TokenKind.startsStatement_ne hst).2.1
    have hm := h.run levels limit hclose (by omega) hend
    exact many_cons _ (hclose (Or.inr hst))
      (statementItem_ok.2 (Or.inr ⟨hk, _, h₀.run levels limit hl, rfl⟩)) hlt
      (by dsimp only; omega) hm

theorem BlockAt.run {s i a cs body j b} (h : BlockAt T s i a cs body j b)
    (levels limit : Nat) (hl : T.size < levels + i) :
    block levels ⟨T, limit, s⟩ ⟨i, a⟩ = .ok body ⟨j, b⟩ := by
  have hlt := h.lt
  have hle := h.le_size
  obtain ⟨k, rfl⟩ : ∃ k, levels = k + 1 := ⟨levels - 1, by omega⟩
  rw [block, braced_ok]
  match h with
  | .mk hk hq h hr =>
    have hm := h.run k limit braceClose_none (by omega)
      (braceClose_ok.2 (Or.inl ⟨hr, rfl, rfl⟩))
    cases hq
    exact ⟨hk, _, hm, rfl⟩

end

theorem Parser.programAt_of_parse {limit : Nat} {source : String} {p : Program}
    (h : parse limit source = .ok p) : ∃ T cs, tokenize source = .ok T ∧ ProgramAt T cs p := by
  obtain ⟨T, t, hT, hp, hroot⟩ := Parser.parse_ok.1 h
  obtain ⟨r, u, hr, hf, hu⟩ := topLevel_ok.1 hp
  obtain ⟨cs, j, hcs, hj, hl, hj'⟩ := itemsAt_of_end hr
  have hp : p = programOf T r.1 j u.arena := by
    rcases p with ⟨a, f, q⟩
    dsimp only at hf hu hroot hl
    cases hu
    rw [programOf, hl, ← hf, ← hroot]
  rw [hp]
  exact ⟨T, cs, hT, .mk hcs hj⟩

theorem ProgramAt.run {T cs p limit source} (h : ProgramAt T cs p) (hT : tokenize source = .ok T)
    (hl : T.size < limit) : parse limit source = .ok p := by
  cases h with
  | mk h hj =>
    have hm := h.run limit limit endClose_none hl
      (endClose_ok.2 (Or.inl ⟨hj, rfl, rfl⟩))
    exact Parser.parse_ok.2 ⟨T, _, hT, topLevel_ok.2 ⟨_, _, hm, rfl, rfl⟩, rfl⟩

end ScriptSyntax
