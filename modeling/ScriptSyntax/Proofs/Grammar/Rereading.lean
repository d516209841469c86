import ScriptSyntax.Proofs.Grammar.Spelling
import ScriptSyntax.Proofs.Program.Unplaced

/-!
The printed form of what was read is read again, to the same trees and the same arena but for their
places. Every operation is an operand of its own there, in parentheses.
-/

namespace ScriptSyntax

open Arena Piece

theorem SeparatorAt.kind {T : TokenList} {i j : Nat} (h : SeparatorAt T i j) :
    ∃ x : Symbol, (T.get i).kind = x ∧ x.isSeparator ∧ x ≠ .leftParen := by
  cases h with
  | comma h => exact ⟨_, h, rfl, by decide⟩
  | last h => exact ⟨_, h, rfl, by decide⟩

section Expressions

variable {T T' : TokenList} {a a' : Arena} {s : ScopeId}

/-- The printed form of an expression is read as an operand, to the same tree. -/
structure Reread (T' : TokenList) (a' : Arena) (s : ScopeId) (e : Phrase) (n : Node) : Prop where
  operand : ∀ {i j}, Spells T' i e.pieces j → (T'.get j).kind ≠ Symbol.leftParen →
    ∃ n', OperandAt T' a' s i e n' j ∧ n'.unplaced = n.unplaced

theorem isBinary_separator {x : Symbol} (h : x.isSeparator) :
    (x : TokenKind).isBinary = false := by
  cases x <;> first | rfl | contradiction

theorem OperandAt.chain {i e n j} (h : OperandAt T a s i e n j) (least : Nat) {x : Symbol}
    (hk : (T.get j).kind = x) (hx : x.isSeparator) : ChainAt T a s least i e n j := by
  refine .mk h (.done fun hb => ?_)
  rw [hk, isBinary_separator hx] at hb
  exact nomatch hb.1

/-- An expression in front of something that ends it. -/
theorem Reread.chain {i j e n} (h : Reread T' a' s e n) (hs : Spells T' i e.pieces j)
    {x : Symbol} (hk : (T'.get j).kind = x) (hx : x.isSeparator) (hp : x ≠ .leftParen)
    (least : Nat) :
    ∃ n', ChainAt T' a' s least i e n' j ∧ n'.unplaced = n.unplaced := by
  obtain ⟨n', hn, hu⟩ :=
    h.operand hs (by rw [hk]; exact fun h => hp (TokenKind.symbol.inj h))
  exact ⟨n', hn.chain least hk hx, hu⟩

theorem Reread.binary {e₀ n₀ e₁ n₁ span} {o : BinaryOperator} (h₀ : Reread T' a' s e₀ n₀)
    (h₁ : Reread T' a' s e₁ n₁) :
    Reread T' a' s (.binary o e₀ e₁) (.binary o n₀ n₁ span) := by
  refine ⟨fun {i j} hs _ => ?_⟩
  rw [Phrase.spells_binary] at hs
  obtain ⟨hopen, k, hs₀, ho, m, hs₁, hclose, rfl⟩ := hs
  have hne : (T'.get k).kind ≠ Symbol.leftParen := ho ▸ o.symbol_ne_leftParen
  obtain ⟨n₀', hn₀, hu₀⟩ := h₀.operand hs₀ hne
  obtain ⟨n₁', hn₁, hu₁⟩ := h₁.chain hs₁ hclose rfl (by decide) (o.precedence + 1)
  have hend : ¬ ((T'.get m).kind.isBinary ∧ 1 ≤ (T'.get m).kind.precedence) := by
    rw [hclose]
    decide
  refine ⟨_, .parenthesised hopen (.mk hn₀ (.more ho o.one_le_precedence hn₁ (.done hend))) hclose,
    ?_⟩
  rw [Node.unplaced, Node.unplaced, hu₀, hu₁]

-- By induction on how the first text was read. The tokens that are spelled decide which rule reads
-- them, and names are found again, as the two arenas differ in places only.
mutual

theorem OperandAt.reread {i e n j} (h : OperandAt T a s i e n j)
    (ha : a'.unplaced = a.unplaced) : Reread T' a' s e n := by
  refine ⟨fun {i' j'} hs hnext => ?_⟩
  match h with
  | .int _ _ =>
    obtain ⟨⟨hk, hv⟩, rfl⟩ := hs
    exact ⟨_, .int hk hv, rfl⟩
  | .double _ _ =>
    obtain ⟨⟨hk, hv⟩, rfl⟩ := hs
    exact ⟨_, .double hk hv, rfl⟩
  | .string _ =>
    obtain ⟨⟨hk, ht⟩, rfl⟩ := hs
    rw [← ht]
    exact ⟨_, .string hk, rfl⟩
  | .load _ _ hx =>
    obtain ⟨⟨hk, ht⟩, rfl⟩ := hs
    rw [← ht, ← Arena.lookupVariable?_alike ha] at hx
    rw [← ht]
    exact ⟨_, .load hk hnext hx, rfl⟩
  | .call _ _ h =>
    rw [Phrase.spells_call] at hs
    obtain ⟨⟨hk, ht⟩, hp, k, hs, hc, rfl⟩ := hs
    obtain ⟨ns', l', hns, hu⟩ := h.reread ha hs hc
    rw [← ht, ← Arena.lookupFunction?_alike ha]
    exact ⟨_, .call hk hp hns, by rw [Node.unplaced, Node.unplaced, hu]⟩
  | .unary _ h =>
    obtain ⟨hk, hs⟩ := hs
    obtain ⟨n', hn, hu⟩ := (h.reread ha).operand hs hnext
    exact ⟨_, .unary hk hn, by rw [Node.unplaced, Node.unplaced, hu]⟩
  | .parenthesised _ h _ => exact (h.reread ha).operand hs hnext

theorem ChainAt.reread {least i e n j} (h : ChainAt T a s least i e n j)
    (ha : a'.unplaced = a.unplaced) : Reread T' a' s e n := by
  match h with
  | .mk h₀ h => exact h.reread ha (h₀.reread ha)

theorem ClimbAt.reread {least i e₀ n₀ e n j} (h : ClimbAt T a s least i e₀ n₀ e n j)
    (ha : a'.unplaced = a.unplaced) (h₀ : Reread T' a' s e₀ n₀) : Reread T' a' s e n := by
  match h with
  | .done _ => exact h₀
  | .more _ _ h₁ h => exact h.reread ha (h₀.binary (h₁.reread ha))

theorem ArgumentsAt.reread {i es ns l j} (h : ArgumentsAt T a s i es ns l j)
    (ha : a'.unplaced = a.unplaced) {i' j'}
    (hs : Spells T' i' (commaSeparated (Phrase.piecesOf es)) j')
    (hc : (T'.get j').kind = Symbol.rightParen) :
    ∃ ns' l', ArgumentsAt T' a' s i' es ns' l' (j' + 1) ∧ unplacedOf ns' = unplacedOf ns := by
  match h with
  | .done _ =>
    cases hs
    exact ⟨_, _, .done hc, rfl⟩
  | .more h _ ht =>
    obtain ⟨k, m, hs, hsep, ht'⟩ := spells_commaSeparated hs hc
    obtain ⟨x, hk, hx, hp⟩ := hsep.kind
    obtain ⟨n', hn, hu⟩ := (h.reread ha).chain hs hk hx hp 1
    obtain ⟨ns', l', hns, hus⟩ := ht.reread ha ht' hc
    exact ⟨_, _, .more hn hsep hns, by rw [unplacedOf, unplacedOf, hu, hus]⟩

end

end Expressions

section Declarations

variable {T T' : TokenList} {a a' b : Arena}

/-- What a parameter declares, without its place. -/
def parametersOf (ps : List (ValueType × Token)) : List Parameter :=
  ps.map fun p => ⟨p.1, p.2.text⟩

theorem ParametersAt.reread {i ps j} (h : ParametersAt T i ps j) {i' j'}
    (hs : Spells T' i' (commaSeparated ((parametersOf ps).map Parameter.pieces)) j')
    (hc : (T'.get j').kind = Symbol.rightParen) :
    ∃ ps', ParametersAt T' i' ps' (j' + 1) ∧ parametersOf ps' = parametersOf ps := by
  induction h generalizing i' with
  | done _ =>
    cases hs
    exact ⟨_, .done hc, rfl⟩
  | more _ ht _ _ _ ih =>
    obtain ⟨k, m, hs, hsep, ht'⟩ := spells_commaSeparated hs hc
    obtain ⟨hk, ⟨hn, hx⟩, rfl⟩ := hs
    obtain ⟨ps', hps, hu⟩ := ih ht'
    refine ⟨_, .more hk ht hn hsep hps, ?_⟩
    rw [parametersOf, List.map_cons, ← parametersOf, hu]
    dsimp only
    rw [hx]
    rfl

theorem DefinesAll.reread {q ps} (h : DefinesAll q a ps b) (ha : a'.unplaced = a.unplaced) {ps'}
    (hps : parametersOf ps' = parametersOf ps) :
    ∃ b', DefinesAll q a' ps' b' ∧ b'.unplaced = b.unplaced := by
  induction h generalizing a' ps' with
  | nil =>
    obtain rfl := List.map_eq_nil_iff.1 hps
    exact ⟨a', .nil, ha⟩
  | @cons _ t x _ _ _ _ hd _ ih =>
    cases ps' with
    | nil => exact nomatch hps
    | cons p ps' =>
      obtain ⟨hp, htail⟩ := List.cons.inj hps
      obtain ⟨t', x'⟩ := p
      obtain ⟨rfl, hx⟩ := Parameter.mk.inj hp
      have hu : (⟨t', x'.text, q, x'.location⟩ : Variable).unplaced =
          (⟨t', x.text, q, x.location⟩ : Variable).unplaced := by
        rw [Variable.unplaced, Variable.unplaced, hx]
      obtain ⟨c, hc, hcu⟩ := Arena.defineVariable_alike ha hd hu
      obtain ⟨b', hb, hbu⟩ := ih hcu htail
      exact ⟨b', .cons hc hb, hbu⟩

theorem HeadAt.reread {s i signature f q j} (h : HeadAt T s i a signature f q j b)
    (ha : a'.unplaced = a.unplaced) {i' j'} (hs : Spells T' i' signature.pieces j') :
    ∃ b', HeadAt T' s i' a' signature f q j' b' ∧ b'.unplaced = b.unplaced := by
  cases h with
  | @mk t ps _ _ _ _ _ _ _ _ _ _ h hq hd hf =>
    rw [Signature.spells_pieces] at hs
    obtain ⟨hk, ht, ⟨hn, hx⟩, hp, k, hs, hc, rfl⟩ := hs
    obtain ⟨ps', hps, hu⟩ := h.reread hs hc
    obtain ⟨b', hq', hbu⟩ := Arena.pushScope_alike ha hq
    obtain ⟨c', hd', hcu⟩ := hd.reread hbu hu
    have hsignature : signatureOf t (T'.get (i' + 2)).text ps' =
        signatureOf t (T.get (i + 2)).text ps := by
      rw [signatureOf, signatureOf, hx]
      exact congrArg _ hu
    obtain ⟨d', hf', hdu⟩ := Arena.defineFunction_alike hcu hf
      (g := headOf (signatureOf t (T'.get (i' + 2)).text ps') s q (T'.get i').location)
      (by rw [hsignature]; rfl)
    have hhead := HeadAt.mk (t := t) hk ht hn hp hps hq' hd' hf'
    rw [hsignature] at hhead
    exact ⟨d', hhead, hdu⟩

end Declarations

variable {T T' : TokenList}

-- Both arenas grow alike, so each statement leaves two that differ in places only to the next one.
-- What stands behind matters to a branch alone, which would take in an `else`.
mutual

theorem StatementAt.reread {s i a c o j b a' i' j' depth} (h : StatementAt T s i a c o j b)
    (ha : a'.unplaced = a.unplaced) (hs : Spells T' i' (c.pieces depth) j')
    (hnext : (T'.get j').kind ≠ Keyword.elseKw) :
    ∃ o' b', StatementAt T' s i' a' c o' j' b' ∧ o'.map Node.unplaced = o.map Node.unplaced ∧
      b'.unplaced = b.unplaced := by
  match h with
  | .expression _ _ h _ =>
    rw [Clause.spells_expression] at hs
    obtain ⟨k, hs, hend, rfl⟩ := hs
    obtain ⟨n', hn, hu⟩ := (h.reread ha).chain hs hend rfl (by decide) 1
    refine ⟨_, _, .expression (TokenKind.not_isKeyword_of_operand hn.starts) ?_ hn hend,
      by simp [hu], ha⟩
    rintro ⟨hi, hassign⟩
    rcases Phrase.behind_identifier hs hi with rfl | hp
    · rw [hend] at hassign
      exact nomatch hassign
    · rw [hp] at hassign
      exact nomatch hassign
  | .declare _ hvoid _ _ h hd _ =>
    rw [Clause.spells_declare] at hs
    obtain ⟨ht, ⟨hx, htext⟩, hassign, k, hs, hend, rfl⟩ := hs
    obtain ⟨n', hn, hu⟩ := (h.reread ha).chain hs hend rfl (by decide) 1
    rw [← htext] at hd ⊢
    obtain ⟨b', hd', hbu⟩ := Arena.defineVariable_alike ha hd
      (y := ⟨_, _, s, (T'.get (i' + 1)).location⟩) rfl
    exact ⟨_, _, .declare ht hvoid hx hassign hn hd' hend, by simp [Node.unplaced, hu], hbu⟩
  | .assign _ hx _ h _ =>
    rw [Clause.spells_assign] at hs
    obtain ⟨⟨hk, htext⟩, ho, k, hs, hend, rfl⟩ := hs
    obtain ⟨n', hn, hu⟩ := (h.reread ha).chain hs hend rfl (by decide) 1
    rw [← htext, ← Arena.lookupVariable?_alike ha] at hx
    rw [← htext]
    exact ⟨_, _, .assign hk hx ho hn hend, by simp [Node.unplaced, hu], ha⟩
  | .print _ _ h _ =>
    rw [Clause.spells_print] at hs
    obtain ⟨hk, hp, k, hs, hc, hend, rfl⟩ := hs
    obtain ⟨ns', l', hns, hu⟩ := h.reread ha hs hc
    exact ⟨_, _, .print hk hp hns hend, by simp [Node.unplaced, hu], ha⟩
  | .giveBackNothing _ _ =>
    obtain ⟨hk, hend, rfl⟩ := hs
    exact ⟨_, _, .giveBackNothing hk hend, rfl, ha⟩
  | .giveBack _ h _ =>
    rw [Clause.spells_giveBack] at hs
    obtain ⟨hk, k, hs, hend, rfl⟩ := hs
    obtain ⟨n', hn, hu⟩ := (h.reread ha).chain hs hend rfl (by decide) 1
    exact ⟨_, _, .giveBack hk hn hend, by simp [Node.unplaced, hu], ha⟩
  | .block h =>
    rw [Clause.spells_block] at hs
    obtain ⟨block', b', hb, hu, hbu⟩ := h.reread ha hs
    exact ⟨_, _, .block hb, by simp [Node.unplaced, hu], hbu⟩
  | .branch _ _ h _ hb _ =>
    rw [Clause.spells_branch] at hs
    obtain ⟨hk, hp, k, hs, hc, hs'⟩ := hs
    obtain ⟨n', hn, hu⟩ := (h.reread ha).chain hs hc rfl (by decide) 1
    obtain ⟨block', b', hb, hbu, hau⟩ := hb.reread ha hs'
    exact ⟨_, _, .branch hk hp hn hc hb hnext, by simp [Node.unplaced, hu, hbu], hau⟩
  | .branchElse _ _ h _ hb _ hb₂ =>
    rw [Clause.spells_branchElse] at hs
    obtain ⟨hk, hp, k, hs, hc, m, hs', he, hs₂⟩ := hs
    obtain ⟨n', hn, hu⟩ := (h.reread ha).chain hs hc rfl (by decide) 1
    obtain ⟨block', b', hb, hbu, hau⟩ := hb.reread ha hs'
    obtain ⟨block₂, b₂, hb₂, hbu₂, hau₂⟩ := hb₂.reread hau hs₂
    exact ⟨_, _, .branchElse hk hp hn hc hb he hb₂, by simp [Node.unplaced, hu, hbu, hbu₂], hau₂⟩
  | .whileLoop _ _ h _ hb =>
    rw [Clause.spells_whileLoop] at hs
    obtain ⟨hk, hp, k, hs, hc, hs'⟩ := hs
    obtain ⟨n', hn, hu⟩ := (h.reread ha).chain hs hc rfl (by decide) 1
    obtain ⟨block', b', hb, hbu, hau⟩ := hb.reread ha hs'
    exact ⟨_, _, .whileLoop hk hp hn hc hb, by simp [Node.unplaced, hu, hbu], hau⟩
  | .forLoop _ _ _ hx _ h _ hb =>
    rw [Clause.spells_forLoop] at hs
    obtain ⟨hk, hp, ⟨hn, htext⟩, hi, k, hs, hc, hs'⟩ := hs
    obtain ⟨n', hn', hu⟩ := (h.reread ha).chain hs hc rfl (by decide) 1
    obtain ⟨block', b', hb, hbu, hau⟩ := hb.reread ha hs'
    rw [← htext, ← Arena.lookupVariable?_alike ha] at hx
    rw [← htext]
    exact ⟨_, _, .forLoop hk hp hn hx hi hn' hc hb, by simp [Node.unplaced, hu, hbu], hau⟩
  | .function hh hb =>
    rw [Clause.spells_function] at hs
    obtain ⟨k, hs, hs'⟩ := hs
    obtain ⟨b', hh, hbu⟩ := hh.reread ha hs
    obtain ⟨block', c', hb, hu, hcu⟩ := hb.reread hbu hs'
    exact ⟨_, _, .function hh hb, rfl, Arena.setBody_alike hcu _ _ _ hu⟩
  | .native hh _ _ _ hq =>
    rw [Clause.spells_native] at hs
    obtain ⟨k, hs, hk, ⟨ht, htext⟩, hend, rfl⟩ := hs
    obtain ⟨b', hh, hbu⟩ := hh.reread ha hs
    obtain ⟨c', hq, hcu⟩ := Arena.pushScope_alike hbu hq
    rw [← htext]
    exact ⟨_, _, .native hh hk ht hend hq, rfl, Arena.setBody_alike hcu _ _ _ (by rfl)⟩

theorem ItemsAt.reread {s i a cs ns j b a' i' j' depth} (h : ItemsAt T s i a cs ns j b)
    (ha : a'.unplaced = a.unplaced) (hs : Spells T' i' (Clause.piecesOf depth cs) j')
    (hnext : (T'.get j').kind ≠ Keyword.elseKw) :
    ∃ ns' b', ItemsAt T' s i' a' cs ns' j' b' ∧ unplacedOf ns' = unplacedOf ns ∧
      b'.unplaced = b.unplaced := by
  match h with
  | .nil =>
    cases hs
    exact ⟨_, _, .nil, rfl, ha⟩
  | .semicolon _ h => exact h.reread ha hs hnext
  | .cons h ht =>
    rw [Clause.piecesOf, spells_append] at hs
    obtain ⟨k, hs, hs'⟩ := hs
    obtain ⟨o', b', ho, hou, hbu⟩ := h.reread ha hs (Clause.frontOf hs' hnext)
    obtain ⟨ns', c', hns, hnu, hcu⟩ := ht.reread hbu hs' hnext
    refine ⟨_, _, .cons ho hns, ?_, hcu⟩
    rw [unplacedOf_append, unplacedOf_append, hnu, unplacedOf_toList hou]

theorem BlockAt.reread {s i a cs block j b a' i' j' depth} (h : BlockAt T s i a cs block j b)
    (ha : a'.unplaced = a.unplaced)
    (hs : Spells T' i' (Clause.braced depth (Clause.piecesOf (depth + 1) cs)) j') :
    ∃ block' b', BlockAt T' s i' a' cs block' j' b' ∧ block'.unplaced = block.unplaced ∧
      b'.unplaced = b.unplaced := by
  match h with
  | .mk _ hq h _ =>
    rw [Clause.spells_braced] at hs
    obtain ⟨hk, k, hs, hc, rfl⟩ := hs
    obtain ⟨b', hq, hbu⟩ := Arena.pushScope_alike ha hq
    obtain ⟨ns', c', hns, hnu, hcu⟩ := h.reread hbu hs (by rw [hc]; decide)
    exact ⟨_, _, .mk hk hq hns hc, by rw [Block.unplaced, Block.unplaced, hnu], hcu⟩

end

/-- A printed program is read again as the program, but for its places. -/
theorem ProgramAt.reread {cs p} (h : ProgramAt T cs p)
    (hs : Spells T' 0 (Clause.piecesOf 0 cs) T'.size) :
    ∃ p', ProgramAt T' cs p' ∧ p'.unplaced = p.unplaced := by
  cases h with
  | @mk ns _ b h _ =>
    have hend : (T'.get T'.size).kind = .endOfInput := by rw [TokenList.get_size]; rfl
    obtain ⟨ns', b', hns, hnu, hbu⟩ := h.reread rfl hs (by rw [hend]; decide)
    refine ⟨_, .mk hns hend, ?_⟩
    have hbody (signature : Signature) (span span' : Span) :
        (⟨signature, root, root, ⟨root, ns', span'⟩, span'⟩ : Function).unplaced =
          (⟨signature, root, root, ⟨root, ns, span⟩, span⟩ : Function).unplaced := by
      rw [Function.unplaced, Function.unplaced, Block.unplaced, Block.unplaced, hnu]
    have htop {x y : Function} (hx : y.unplaced = x.unplaced) :
        ((b'.addFunction y).1, (b'.addFunction y).2.unplaced) =
          ((b.addFunction x).1, (b.addFunction x).2.unplaced) := by
      rw [← Arena.unplaced_addFunction, hbu, hx, Arena.unplaced_addFunction]
    simp only [programOf, Program.unplaced, Program.mk.injEq, and_true]
    exact (Prod.mk.inj (htop (hbody _ _ _))).symm

end ScriptSyntax
