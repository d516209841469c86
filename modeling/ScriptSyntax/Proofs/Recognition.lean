import ScriptSyntax.Proofs.Grammar.Acceptance
import ScriptSyntax.Proofs.Token.Lexical

/-!
The parser accepts the words of the grammar and no others, apart from what names and literals mean
and from how deep a text may nest.
-/

namespace ScriptSyntax

open ScriptSyntax.Parser TokenList ScriptSyntax.Language

variable {T : TokenList} {i j m levels : Nat}

section Starts

/-! What the words of statements begin with, and what stands behind them. -/

theorem ofKind?_of_isVariableType {k : TokenKind} (h : isVariableType k) :
    ∃ t, ValueType.ofKind? k = some t ∧ t ≠ .void := by
  unfold isVariableType at h
  split at h
  · exact ⟨.int, rfl, nofun⟩
  · exact ⟨.double, rfl, nofun⟩
  · exact ⟨.string, rfl, nofun⟩
  · exact nomatch h

theorem Language.Block.starts {w : List TokenKind} (h : Block w) (hr : T.Reads i w j) :
    (T.get i).kind = Symbol.leftBrace := by
  cases h with
  | mk _ => exact hr.1

theorem Language.Head.starts {w v : List TokenKind} (h : Head w) (hr : T.Reads i (w ++ v) j) :
    (T.get i).kind = Keyword.functionKw := by
  cases h with
  | mk _ _ => exact hr.1

theorem Language.Statement.starts {w : List TokenKind} (h : Statement w) (hr : T.Reads i w j) :
    (T.get i).kind.startsStatement ∧ (T.get i).kind ≠ Keyword.elseKw := by
  cases h with
  | expression hw =>
    obtain ⟨m, hr, -⟩ := reads_append.1 hr
    exact TokenKind.startsStatement_of_operand (hw.starts hr)
  | declare hk _ =>
    obtain ⟨t, ht, -⟩ := ofKind?_of_isVariableType hk
    rw [hr.1]
    exact TokenKind.startsStatement_of_type ht
  | block h =>
    rw [h.starts hr]
    exact ⟨rfl, nofun⟩
  | function h _ | native h =>
    rw [h.starts hr]
    exact ⟨rfl, nofun⟩
  | _ =>
    rw [hr.1]
    exact ⟨rfl, nofun⟩

theorem Language.Statement.lt {w : List TokenKind} (h : Statement w) (hr : T.Reads i w j) :
    i < j := by
  rw [hr.length]
  cases h with
  | block h | function h _ | native h =>
    cases h
    simp
  | _ => simp

/-- No list of statements begins with the branch that is taken otherwise. -/
theorem Language.Statements.next {w : List TokenKind} (h : Statements w) (hr : T.Reads i w j)
    (hj : (T.get j).kind ≠ Keyword.elseKw) : (T.get i).kind ≠ Keyword.elseKw := by
  cases h with
  | nil =>
    obtain rfl := hr
    exact hj
  | semicolon _ =>
    rw [hr.1]
    exact nofun
  | cons hv _ =>
    obtain ⟨m, hrv, -⟩ := reads_append.1 hr
    exact (hv.starts hrv).2

/-- An expression does not begin like an assignment. -/
theorem Language.Operation.second {least : Nat} {w : List TokenKind} (h : Operation least w)
    (hr : T.Reads i w j) (he : (T.get j).kind.endsExpression)
    (hi : (T.get i).kind = .identifier) : ¬ (T.get (i + 1)).kind.isAssignment := by
  obtain ⟨u, v, rfl, hu, hv⟩ := h.row
  cases hu with
  | name => exact (TokenKind.ne_of_endsOperand (hv.next hr.2 he)).2
  | call _ =>
    rw [hr.2.1]
    simp [TokenKind.isAssignment]
  | unary hk _ =>
    rw [← hr.1, hi] at hk
    contradiction
  | _ =>
    rw [hr.1] at hi
    contradiction

end Starts

section Declarations

theorem loop_parameter {k : Nat} {P : Nat → Prop} (hk : isVariableType (T.get i).kind)
    (hn : (T.get (i + 1)).kind = .identifier) (hs : SeparatorAt T (i + 2) k)
    (h : Loops T parenClose (do return [← parameter]) k P) :
    Loops T parenClose (do return [← parameter]) i P := by
  obtain ⟨t, ht, hv⟩ := ofKind?_of_isVariableType hk
  have hne : (T.get i).kind ≠ Symbol.rightParen := by
    intro hp
    rw [hp] at hk
    exact nomatch hk
  have hle := hs.le
  refine .more (parenClose_none hne) ?_ (by omega) (lt_size_of_type ht) h
  -- The type and the name are taken, then what stands behind them.
  have hp : Gets T parameter i (· = k) := by
    apply Gets.advance
    apply (gets_typeOf ht fun h => absurd h hv).seq
    intro type
    exact (gets_expect hn).seq fun name => hs.gets.seq fun _ => gets_pure rfl
  exact hp.seq fun _ => gets_pure rfl

theorem Language.Parameters.loops {w : List TokenKind} (h : Parameters w) (hr : T.Reads i w j)
    (hj : (T.get j).kind = Symbol.rightParen) :
    Loops T parenClose (do return [← parameter]) i (· = j + 1) := by
  induction h generalizing i with
  | none =>
    obtain rfl := hr
    exact .parenClose hj
  | last hk =>
    obtain ⟨hi, hn, rfl⟩ := hr
    exact loop_parameter (hi ▸ hk) hn (.last hj) (.parenClose hj)
  | more hk _ ih =>
    obtain ⟨hi, hn, hc, hr⟩ := hr
    exact loop_parameter (hi ▸ hk) hn (.comma hc) (ih hr)

theorem gets_defineAll (ps : List (ValueType × Token)) : Gets T (defineAll ps) i (· = i) := by
  induction ps with
  | nil => exact gets_pure rfl
  | cons p ps ih => exact Gets.seq gets_define fun _ => ih

theorem gets_defineFunction {owner : ScopeId} {signature : Signature} {name start : Token} :
    Gets T (defineFunction owner signature name start) i (· = i) := by
  refine Gets.seq gets_scope fun q => Gets.seq gets_get fun s => ?_
  cases s.arena.defineFunction owner ⟨signature, owner, q, ⟨q, [], .single start.location⟩,
      .single start.location⟩ false with
  | ok r => exact (gets_modify (f := fun _ => r.2)).seq fun _ => gets_pure rfl
  | error _ => exact gets_fail rfl

theorem gets_nativeBody {signature : Signature} (hn : (T.get i).kind = Keyword.nativeKw)
    (ht : (T.get (i + 1)).kind = .stringLiteral) (hs : (T.get (i + 2)).kind = Symbol.semicolon) :
    Gets T (nativeBody signature) i (· = i + 3) := by
  refine (gets_expect hn).seq fun start => (gets_expect ht).seq fun target =>
    (gets_expect hs).seq fun finish => ?_
  apply Gets.inNewScope
  exact Gets.seq gets_scope fun q => gets_pure rfl

/-- What is declared does not move the cursor, so the body is found behind the parameters. -/
theorem Language.Head.gets {w : List TokenKind} {q : Parser ScriptSyntax.Block} (h : Head w)
    (hr : T.Reads i w m) (hq : (T.get m).kind ≠ Keyword.nativeKw → Gets T q m (· = j))
    (hn : (T.get m).kind = Keyword.nativeKw →
      ∀ signature, Gets T (nativeBody signature) m (· = j)) :
    Gets T (functionDeclaration q) i (· = j) := by
  cases h with
  | @mk k w hk hw =>
    obtain ⟨hf, ht, hi, hl, hr⟩ := hr
    obtain ⟨n, hrw, hc, rfl⟩ := reads_append.1 hr
    obtain ⟨t, hty⟩ : ∃ t, ValueType.ofKind? (T.get (i + 1)).kind = some t := by
      rw [← Option.isSome_iff_exists, ValueType.isSome_ofKind?, ht, hk]
    apply (gets_expect hf).seq
    intro start
    apply Gets.advance
    apply (gets_typeOf hty fun _ => rfl).seq
    intro returns
    apply (gets_expect hi).seq
    intro name
    apply (gets_expect hl).seq
    intro _
    apply (hw.loops hrw hc).gets.seq
    rintro ⟨parameters, finish⟩
    apply Gets.seq gets_scope
    intro owner
    apply Gets.inNewScope
    apply (gets_defineAll parameters).seq
    intro _
    apply Gets.seq gets_defineFunction
    intro f
    apply Gets.peek
    have hset : ∀ body : ScriptSyntax.Block, Gets T (do
        modify fun s =>
          { s with arena := s.arena.setBody f body ⟨start.location, body.span.finish⟩ }
        return f) j (· = j) :=
      fun body => (gets_modify (f := fun a => a.setBody f body _)).seq fun _ => gets_pure rfl
    dsimp only [Nat.add_zero]
    split
    · next hk => exact (hn hk _).seq hset
    · next hk => exact (hq hk).seq hset

end Declarations

section Statements

variable {q : Parser ScriptSyntax.Block} {p : Parser Node}

theorem Parser.Gets.terminated {p : Parser Node} (h : Gets T p i (· = j))
    (hj : (T.get j).kind = Symbol.semicolon) : Gets T (terminated p) i (· = j + 1) :=
  h.seq fun _ => (gets_expect hj).seq fun _ => gets_pure rfl

theorem Language.Condition.gets {w : List TokenKind} (h : Condition w) (hr : T.Reads i w j)
    (hp : GetsExpressions T (i + 1) p) : Gets T (condition p) i (· = j) := by
  cases h with
  | mk hw =>
    obtain ⟨m, hrw, hm, rfl⟩ := reads_append.1 hr.2
    apply (gets_expect hr.1).seq
    intro _
    apply (hp (Nat.le_refl _) hw hrw (by rw [hm]; rfl)).seq
    intro node
    exact (gets_expect hm).seq fun _ => gets_pure rfl

/-- What the first token does not tell to be anything else is an expression. -/
theorem gets_expression_statement (hi : (T.get i).kind.startsOperand)
    (hs : (T.get i).kind = .identifier → ¬ (T.get (i + 1)).kind.isAssignment)
    (h : Gets T (terminated p) i (· = j)) : Gets T (statement q p) i (· = j) := by
  apply Gets.peek
  rw [Nat.add_zero]
  generalize hk : (T.get i).kind = k at hi hs
  cases k with
  | identifier =>
    apply Gets.peek
    rw [if_neg (hs rfl)]
    exact h
  | keyword k => contradiction
  | symbol s => cases s <;> first | exact h | contradiction
  | _ => exact h

theorem gets_variableDeclaration {w : List TokenKind} (hk : isVariableType (T.get i).kind)
    (hn : (T.get (i + 1)).kind = .identifier) (ha : (T.get (i + 2)).kind = Symbol.assign)
    (hw : Operation 1 w) (hr : T.Reads (i + 3) w j) (hj : (T.get j).kind = Symbol.semicolon)
    (hp : GetsExpressions T i p) : Gets T (statement q p) i (· = j + 1) := by
  obtain ⟨t, ht, hv⟩ := ofKind?_of_isVariableType hk
  have hd : Gets T (variableDeclaration p) i (· = j) := by
    apply Gets.advance
    apply (gets_typeOf ht fun h => absurd h hv).seq
    intro type
    refine (gets_expect hn).seq fun name => (gets_expect ha).seq fun _ => ?_
    apply (hp (by omega) hw hr (by rw [hj]; rfl)).seq
    intro value
    exact Gets.seq gets_define fun _ => gets_pure rfl
  apply Gets.peek
  rw [Nat.add_zero]
  generalize (T.get i).kind = k at hk
  cases k with
  | keyword k => cases k <;> first | exact hd.terminated hj | exact nomatch hk
  | _ => exact nomatch hk

theorem gets_assignment {w : List TokenKind} (hi : (T.get i).kind = .identifier)
    (ha : (T.get (i + 1)).kind.isAssignment) (hw : Operation 1 w) (hr : T.Reads (i + 2) w j)
    (hj : (T.get j).kind = Symbol.semicolon) (hp : GetsExpressions T i p) :
    Gets T (statement q p) i (· = j + 1) := by
  have hd : Gets T (assignment p) i (· = j) := by
    refine (gets_expect hi).seq fun name => Gets.seq gets_resolve fun target => ?_
    apply Gets.advance
    apply (hp (by omega) hw hr (by rw [hj]; rfl)).seq
    intro value
    unfold Node.ofAssign
    cases AssignOperator.ofKind? (T.get (i + 1)).kind with
    | some _ => exact gets_pure rfl
    | none => exact gets_fail rfl
  apply Gets.peek
  rw [Nat.add_zero, hi]
  apply Gets.peek
  rw [if_pos ha]
  exact hd.terminated hj

theorem gets_printed {w : List TokenKind} (hi : (T.get i).kind = Keyword.printKw)
    (hl : (T.get (i + 1)).kind = Symbol.leftParen) (hw : Arguments w) (hr : T.Reads (i + 2) w j)
    (hj : (T.get j).kind = Symbol.rightParen) (hs : (T.get (j + 1)).kind = Symbol.semicolon)
    (hp : GetsExpressions T i p) : Gets T (statement q p) i (· = j + 2) := by
  have hd : Gets T (printed p) i (· = j + 1) := by
    refine (gets_expect hi).seq fun start => (gets_expect hl).seq fun _ => ?_
    exact (hw.gets hp (by omega) hr hj).seq fun _ => gets_pure rfl
  apply Gets.peek
  rw [Nat.add_zero, hi]
  exact hd.terminated hs

theorem gets_returned_nothing (hi : (T.get i).kind = Keyword.returnKw)
    (hs : (T.get (i + 1)).kind = Symbol.semicolon) :
    Gets T (statement q p) i (· = i + 2) := by
  have hd : Gets T (returned p) i (· = i + 1) := by
    apply (gets_expect hi).seq
    intro start
    apply Gets.peek
    rw [if_pos hs]
    exact gets_pure rfl
  apply Gets.peek
  rw [Nat.add_zero, hi]
  exact hd.terminated hs

theorem gets_returned {w : List TokenKind} (hi : (T.get i).kind = Keyword.returnKw)
    (hw : Operation 1 w) (hr : T.Reads (i + 1) w j) (hj : (T.get j).kind = Symbol.semicolon)
    (hp : GetsExpressions T i p) : Gets T (statement q p) i (· = j + 1) := by
  have hd : Gets T (returned p) i (· = j) := by
    apply (gets_expect hi).seq
    intro start
    apply Gets.peek
    rw [if_neg (TokenKind.startsOperand_ne (hw.starts hr)).2.1]
    apply (hp (by omega) hw hr (by rw [hj]; rfl)).seq
    intro value
    exact gets_pure rfl
  apply Gets.peek
  rw [Nat.add_zero, hi]
  exact hd.terminated hj

theorem gets_whileLoop {c : List TokenKind} (hi : (T.get i).kind = Keyword.whileKw)
    (hc : Condition c) (hr : T.Reads (i + 1) c m) (hq : Gets T q m (· = j))
    (hp : GetsExpressions T i p) : Gets T (statement q p) i (· = j) := by
  have hd : Gets T (whileLoop q p) i (· = j) := by
    apply (gets_expect hi).seq
    intro start
    apply (hc.gets hr fun h => hp (by omega)).seq
    intro test
    exact hq.seq fun _ => gets_pure rfl
  apply Gets.peek
  rw [Nat.add_zero, hi]
  exact hd.seq fun _ => gets_pure rfl

theorem gets_forLoop {w : List TokenKind} (hi : (T.get i).kind = Keyword.forKw)
    (hl : (T.get (i + 1)).kind = Symbol.leftParen) (hn : (T.get (i + 2)).kind = .identifier)
    (hin : (T.get (i + 3)).kind = Keyword.inKw) (hw : Operation 1 w) (hr : T.Reads (i + 4) w m)
    (hm : (T.get m).kind = Symbol.rightParen) (hq : Gets T q (m + 1) (· = j))
    (hp : GetsExpressions T i p) : Gets T (statement q p) i (· = j) := by
  have hd : Gets T (forLoop q p) i (· = j) := by
    refine (gets_expect hi).seq fun start => (gets_expect hl).seq fun _ =>
      (gets_expect hn).seq fun name => Gets.seq gets_resolve fun target =>
      (gets_expect hin).seq fun _ => ?_
    apply (hp (by omega) hw hr (by rw [hm]; rfl)).seq
    intro range
    exact (gets_expect hm).seq fun _ => hq.seq fun _ => gets_pure rfl
  apply Gets.peek
  rw [Nat.add_zero, hi]
  exact hd.seq fun _ => gets_pure rfl

theorem gets_branch {c : List TokenKind} {P : Nat → Prop} (hi : (T.get i).kind = Keyword.ifKw)
    (hc : Condition c) (hr : T.Reads (i + 1) c m) (hq : Gets T q m (· = j))
    (hp : GetsExpressions T i p) (hthen : (T.get j).kind ≠ Keyword.elseKw → P j)
    (helse : (T.get j).kind = Keyword.elseKw → Gets T q (j + 1) P) :
    Gets T (statement q p) i P := by
  have hd : Gets T (branch q p) i P := by
    apply (gets_expect hi).seq
    intro start
    apply (hc.gets hr fun h => hp (by omega)).seq
    intro test
    apply hq.seq
    intro thenBody
    by_cases hj : (T.get j).kind = Keyword.elseKw
    · apply gets_accept hj
      exact (helse hj).bind fun _ _ hk => gets_pure hk
    · apply gets_accept_not hj
      exact gets_pure (hthen hj)
  apply Gets.peek
  rw [Nat.add_zero, hi]
  exact hd.bind fun _ _ hk => gets_pure hk

end Statements

section Blocks

mutual

/-- A statement is read to its end, unless what stands behind it would still belong to it. -/
theorem Language.Statement.gets {i j : Nat} {w : List TokenKind} (h : Statement w) (levels : Nat)
    (hl : T.size < levels + i) (hr : T.Reads i w j) (hj : (T.get j).kind ≠ Keyword.elseKw) :
    Gets T (statement (block levels) (expression levels 1)) i (· = j) := by
  have hp : GetsExpressions T i (expression levels 1) := getsExpressions_expression hl
  match h with
  | .expression hw =>
    obtain ⟨m, hrw, hm, rfl⟩ := reads_append.1 hr
    have he : (T.get m).kind.endsExpression := by rw [hm]; rfl
    apply gets_expression_statement (hw.starts hrw) (hw.second hrw he)
    exact (hp (Nat.le_refl i) hw hrw he).terminated hm
  | .declare hk hw =>
    obtain ⟨hi, hn, ha, hr⟩ := hr
    obtain ⟨m, hrw, hm, rfl⟩ := reads_append.1 hr
    exact gets_variableDeclaration (hi ▸ hk) hn ha hw hrw hm hp
  | .assign hk hw =>
    obtain ⟨hi, ha, hr⟩ := hr
    obtain ⟨m, hrw, hm, rfl⟩ := reads_append.1 hr
    exact gets_assignment hi (ha ▸ hk) hw hrw hm hp
  | .print hw =>
    obtain ⟨hi, hl, hr⟩ := hr
    obtain ⟨m, hrw, hm, hs, rfl⟩ := reads_append.1 hr
    exact gets_printed hi hl hw hrw hm hs hp
  | .giveBackNothing =>
    obtain ⟨hi, hs, rfl⟩ := hr
    exact gets_returned_nothing hi hs
  | .giveBack hw =>
    obtain ⟨hi, hr⟩ := hr
    obtain ⟨m, hrw, hm, rfl⟩ := reads_append.1 hr
    exact gets_returned hi hw hrw hm hp
  | .block hb =>
    apply Gets.peek
    rw [Nat.add_zero, hb.starts hr]
    exact (hb.gets levels hl hr).seq fun _ => gets_pure rfl
  | .branch hc hb =>
    obtain ⟨hi, hr⟩ := hr
    obtain ⟨m, hrc, hrb⟩ := reads_append.1 hr
    have := hrc.length
    exact gets_branch hi hc hrc (hb.gets levels (by omega) hrb) hp (fun _ => rfl)
      fun h => absurd h hj
  | .branchElse hc hb hb' =>
    obtain ⟨hi, hr⟩ := hr
    obtain ⟨m, hrc, hr⟩ := reads_append.1 hr
    obtain ⟨k, hrb, hk, hrb'⟩ := reads_append.1 hr
    have := hrc.length
    have := hrb.length
    exact gets_branch hi hc hrc (hb.gets levels (by omega) hrb) hp (fun h => absurd hk h)
      fun _ => hb'.gets levels (by omega) hrb'
  | .whileLoop hc hb =>
    obtain ⟨hi, hr⟩ := hr
    obtain ⟨m, hrc, hrb⟩ := reads_append.1 hr
    have := hrc.length
    exact gets_whileLoop hi hc hrc (hb.gets levels (by omega) hrb) hp
  | .forLoop hw hb =>
    obtain ⟨hi, hp', hn, hin, hr⟩ := hr
    obtain ⟨m, hrw, hm, hrb⟩ := reads_append.1 hr
    have := hrw.length
    exact gets_forLoop hi hp' hn hin hw hrw hm (hb.gets levels (by omega) hrb) hp
  | .function hh hb =>
    obtain ⟨m, hrh, hrb⟩ := reads_append.1 hr
    have := hrh.length
    have hb' := hb.gets levels (by omega) hrb
    have hd := hh.gets (j := j) hrh (fun _ => hb') fun hn => by
      rw [hb.starts hrb] at hn
      exact nomatch hn
    apply Gets.peek
    rw [Nat.add_zero, hh.starts hr]
    exact hd.seq fun _ => gets_pure rfl
  | .native hh =>
    obtain ⟨m, hrh, hn, ht, hs, rfl⟩ := reads_append.1 hr
    have hd := hh.gets (q := block levels) hrh (fun h => absurd hn h)
      fun _ _ => gets_nativeBody hn ht hs
    apply Gets.peek
    rw [Nat.add_zero, hh.starts hr]
    exact hd.seq fun _ => gets_pure rfl

/-- Statements are read up to what `close` takes as their end. -/
theorem Language.Statements.loops {β : Type} {close : Parser (Option β)} {P : Nat → Prop}
    {i j : Nat} {w : List TokenKind} (h : Statements w) (levels : Nat) (hl : T.size < levels + i)
    (hr : T.Reads i w j)
    (hclose : ∀ {k}, (T.get k).kind = Symbol.semicolon ∨ (T.get k).kind.startsStatement →
      ∀ limit s a, close ⟨T, limit, s⟩ ⟨k, a⟩ = .ok none ⟨k, a⟩)
    (hj : (T.get j).kind ≠ Keyword.elseKw)
    (hend : ∀ {item : Parser (List Node)}, Loops T close item j P) :
    Loops T close (statementItem (statement (block levels) (expression levels 1))) i P := by
  match h with
  | .nil =>
    obtain rfl := hr
    exact hend
  | .semicolon hw =>
    obtain ⟨hi, hr⟩ := hr
    have hitem : Gets T (statementItem (statement (block levels) (expression levels 1))) i
        (· = i + 1) := gets_accept hi (gets_pure rfl)
    exact .more (hclose (Or.inl hi)) hitem (Nat.lt_succ_self i) (lt_size_of_symbol hi)
      (hw.loops levels (by omega) hr hclose hj hend)
  | .cons hv hw =>
    obtain ⟨m, hrv, hrw⟩ := reads_append.1 hr
    obtain ⟨hst, -⟩ := hv.starts hrv
    have hlt := hv.lt hrv
    have hs := (TokenKind.startsStatement_ne hst).2.1
    have hitem : Gets T (statementItem (statement (block levels) (expression levels 1))) i
        (· = m) := by
      apply gets_accept_not hs
      exact (hv.gets levels hl hrv (hw.next hrw hj)).seq fun _ => gets_pure rfl
    exact .more (hclose (Or.inr hst)) hitem hlt (lt_size_of_startsStatement hst)
      (hw.loops levels (by omega) hrw hclose hj hend)

theorem Language.Block.gets {i j : Nat} {w : List TokenKind} (h : Block w) (levels : Nat)
    (hl : T.size < levels + i) (hr : T.Reads i w j) : Gets T (block levels) i (· = j) := by
  match h with
  | .mk hw =>
    obtain ⟨hi, hr⟩ := hr
    obtain ⟨m, hrw, hm, rfl⟩ := reads_append.1 hr
    have := lt_size_of_symbol hi
    obtain ⟨k, rfl⟩ : ∃ k, levels = k + 1 := ⟨levels - 1, by omega⟩
    have hend : ∀ {item : Parser (List Node)}, Loops T braceClose item m (· = m + 1) :=
      .done fun limit s a => ⟨_, _, braceClose_ok.2 (Or.inl ⟨hm, rfl, rfl⟩), rfl⟩
    have hloop := hw.loops k (by omega) hrw (fun h _ _ _ => braceClose_none h)
      (by rw [hm]; exact nofun) hend
    rw [block]
    apply (gets_expect hi).seq
    intro start
    apply Gets.inNewScope
    apply hloop.gets.seq
    rintro ⟨body, finish⟩
    exact Gets.seq gets_scope fun _ => gets_pure rfl

end

end Blocks

section Texts

theorem reads_kinds_from (h : i ≤ T.size) : T.Reads i (T.kinds.drop i) T.size := by
  induction hn : T.size - i generalizing i with
  | zero =>
    have hlen : T.kinds.length ≤ i := by
      simp only [kinds, toList, List.length_map, Array.length_toList]
      exact Nat.le_of_sub_eq_zero hn
    rw [List.drop_eq_nil_of_le hlen, reads_nil]
    omega
  | succ n ih =>
    have hi : i < T.size := by omega
    rw [kinds, ← List.map_drop, drop_eq hi, List.map_cons, List.map_drop]
    exact ⟨rfl, ih hi (by omega)⟩

theorem reads_kinds : T.Reads 0 T.kinds T.size := reads_kinds_from (Nat.zero_le _)

/-- Between the same slots there is one word. -/
theorem TokenList.Reads.unique {v w : List TokenKind} (hv : T.Reads i v j) (hw : T.Reads i w j) :
    v = w := by
  induction v generalizing i w with
  | nil =>
    obtain rfl := hv
    have hlen := hw.length
    exact (List.length_eq_zero_iff.1 (by omega)).symm
  | cons k v ih =>
    cases w with
    | nil =>
      have hlen := hv.length
      rw [reads_nil.1 hw] at hlen
      simp at hlen
    | cons k' w => rw [← hv.1, ← hw.1, ih hv.2 hw.2]

end Texts

/-- The tokens of a text are accepted only if they are a word of the grammar. A word is accepted
whatever was declared before, if the nesting limit exceeds the number of tokens, unless a name, an
operator or a literal in it has no meaning. -/
theorem topLevel_accepts_grammar (source : String) (limit : Nat) (s : ScopeId) (a : Arena) :
    let T := (scan source).1
    (∀ f t, Parser.topLevel limit ⟨T, limit, s⟩ ⟨0, a⟩ = .ok f t → Statements T.kinds) ∧
      (Statements T.kinds → T.size < limit →
        (∃ f t, Parser.topLevel limit ⟨T, limit, s⟩ ⟨0, a⟩ = .ok f t) ∨
          ∃ e t, Parser.topLevel limit ⟨T, limit, s⟩ ⟨0, a⟩ = .error e t ∧
            e.cause.concernsMeaning) := by
  intro T
  constructor
  · intro f t h
    obtain ⟨r, u, hr, -⟩ := topLevel_ok.1 h
    obtain ⟨cs, j, hcs, hj, -⟩ := itemsAt_of_end hr
    obtain ⟨w, hw, hread⟩ := hcs.word
    -- No token is the end of the input, so the statements end where the list does.
    have hle : j ≤ T.size := hcs.le_size (Nat.zero_le _)
    have hsize : j = T.size := by
      rcases Nat.lt_or_eq_of_le hle with hlt | heq
      · have hlex := lexical_scan source j hlt
        unfold Token.Lexical at hlex
        rw [hj] at hlex
        exact hlex.elim
      · exact heq
    rw [hsize] at hread
    exact hread.unique reads_kinds ▸ hw
  · intro hw hlimit
    have hend : (T.get T.size).kind = .endOfInput := by
      rw [get_size]
      rfl
    have hloop : ∀ {item : Parser (List Node)}, Loops T endClose item T.size fun _ => True :=
      .done fun limit s a => ⟨_, _, endClose_ok.2 (Or.inl ⟨hend, rfl, rfl⟩), trivial⟩
    have hitems := (hw.loops limit hlimit reads_kinds (fun h _ _ _ => endClose_none h)
      (by rw [hend]; exact nofun) hloop).gets
    have htop : Gets T (Parser.topLevel limit) 0 fun _ => True := by
      apply Gets.seq gets_scope
      intro root
      apply Gets.seq gets_here
      intro start
      apply hitems.bind
      rintro ⟨body, finish⟩ k -
      apply Gets.seq gets_get
      intro t
      exact (gets_modify (f := fun _ => _)).seq fun _ => gets_pure trivial
    rcases (htop limit s a).result with ⟨f, t, h, -⟩ | ⟨e, t, h, he⟩
    · exact Or.inl ⟨f, t, h⟩
    · exact Or.inr ⟨e, t, h, he⟩

/-- A text that is read is a word, and a word is read, or stopped only by the variable that it
lacks. -/
theorem topLevel_accepts_assignment :
    Statements (scan "int x = 1;").1.kinds ∧
      (∃ f t, Parser.topLevel 8 ⟨(scan "int y = 1;").1, 8, Arena.root⟩ ⟨0, .fresh⟩ = .ok f t) ∧
      ∃ e t, Parser.topLevel 8 ⟨(scan "y = 1;").1, 8, Arena.root⟩ ⟨0, .fresh⟩ = .error e t ∧
        e.cause.concernsMeaning := by
  have hreads : ∀ source,
      (∃ f t, Parser.topLevel 8 ⟨(scan source).1, 8, Arena.root⟩ ⟨0, .fresh⟩ = .ok f t) ↔
        ((Parser.topLevel 8 ⟨(scan source).1, 8, Arena.root⟩).run' ⟨0, .fresh⟩).isSome = true := by
    intro source
    unfold EStateM.run' EStateM.run
    cases Parser.topLevel 8 ⟨(scan source).1, 8, Arena.root⟩ ⟨0, .fresh⟩ <;> simp
  refine ⟨?_, ?_, ?_⟩
  · obtain ⟨f, t, hr⟩ := (hreads "int x = 1;").2 (by decide +kernel)
    exact (topLevel_accepts_grammar "int x = 1;" 8 Arena.root .fresh).1 f t hr
  · have hk : (scan "int y = 1;").1.kinds =
        [.keyword .intKw, .identifier, .symbol .assign, .intLiteral, .symbol .semicolon] := by
      decide +kernel
    have hw : Statements (scan "int y = 1;").1.kinds := by
      rw [hk]
      exact .cons (.declare rfl (.operand .int)) .nil
    have hs : (scan "int y = 1;").1.size < 8 := by decide +kernel
    rcases (topLevel_accepts_grammar "int y = 1;" 8 Arena.root .fresh).2 hw hs with
      hr | ⟨e, t, hr, -⟩
    · exact hr
    · obtain ⟨f, u, hok⟩ := (hreads "int y = 1;").2 (by decide +kernel)
      rw [hr] at hok
      contradiction
  · have hk : (scan "y = 1;").1.kinds =
        [.identifier, .symbol .assign, .intLiteral, .symbol .semicolon] := by decide +kernel
    have hw : Statements (scan "y = 1;").1.kinds := by
      rw [hk]
      exact .cons (.assign rfl (.operand .int)) .nil
    have hs : (scan "y = 1;").1.size < 8 := by decide +kernel
    rcases (topLevel_accepts_grammar "y = 1;" 8 Arena.root .fresh).2 hw hs with hr | hr
    · exact absurd ((hreads "y = 1;").1 hr) (by decide +kernel)
    · exact hr

end ScriptSyntax
