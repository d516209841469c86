import ScriptSyntax.Proofs.Grammar.Levels
import ScriptSyntax.Proofs.Grammar.Rereading

/-!
How deep the printed form of a program is nested. Every operation is in parentheses there, so that
the levels it takes depend on nothing but what it says.
-/

namespace ScriptSyntax

namespace Phrase

mutual

/-- How many levels an expression takes below its own. The parentheses around an operation are a
level, and its right operand is an expression of its own inside them. -/
def depth : Phrase → Nat
  | int _ | double _ | string _ | name _ => 0
  | unary _ operand => operand.depth + 1
  | binary _ left right => max left.depth (right.depth + 1) + 1
  | call _ arguments => depthOf arguments

/-- How many levels the members of a list take, each an expression of its own. -/
def depthOf : List Phrase → Nat
  | [] => 0
  | e :: es => max (e.depth + 1) (depthOf es)

end

end Phrase

namespace Clause

mutual

/-- How many levels a clause takes. A block is a level, a body that calls out is none. -/
def depth : Clause → Nat
  | expression e | declare _ _ e | assign _ _ e | giveBack (some e) => e.depth + 1
  | print arguments => Phrase.depthOf arguments
  | giveBack none | native _ _ => 0
  | block body | function _ body => depthOf body + 1
  | branch e thenBody none => max (e.depth + 1) (depthOf thenBody + 1)
  | branch e thenBody (some elseBody) =>
    max (e.depth + 1) (max (depthOf thenBody + 1) (depthOf elseBody + 1))
  | whileLoop e body | forLoop _ e body => max (e.depth + 1) (depthOf body + 1)

def depthOf : List Clause → Nat
  | [] => 0
  | c :: cs => max c.depth (depthOf cs)

end

end Clause

open ScriptSyntax.Parser

section Expressions

variable {T : TokenList} {a : Arena} {s : ScopeId}

/-- The printed form of an expression is read as an operand with as many levels as it is deep. -/
structure Measured (T : TokenList) (a : Arena) (s : ScopeId) (e : Phrase) : Prop where
  operand : ∀ {i j} (limit : Nat), Spells T i e.pieces j → (T.get j).kind ≠ Symbol.leftParen →
    ∃ n, Takes unary e.depth ⟨T, limit, s⟩ ⟨i, a⟩ n ⟨j, a⟩

/-- An expression in front of something that ends it. -/
theorem Measured.chain {i j e} (h : Measured T a s e) (hs : Spells T i e.pieces j)
    {x : Symbol} (hk : (T.get j).kind = x) (hx : x.isSeparator) (hp : x ≠ .leftParen)
    (least limit : Nat) :
    ∃ n, Takes (fun levels => expression levels least) (e.depth + 1) ⟨T, limit, s⟩ ⟨i, a⟩ n
      ⟨j, a⟩ := by
  obtain ⟨n, hn⟩ := h.operand limit hs (by rw [hk]; exact fun h => hp (TokenKind.symbol.inj h))
  have hend : (T.get j).kind.isBinary = false := by rw [hk, isBinary_separator hx]
  have hchain : Takes (fun levels => expression levels least) (max e.depth 0 + 1) ⟨T, limit, s⟩
      ⟨i, a⟩ n ⟨j, a⟩ := takes_expression hn (.always fun _ => climb_done hend)
  rw [Nat.max_zero] at hchain
  exact ⟨n, hchain⟩

theorem Measured.binary {e₀ e₁} {o : BinaryOperator} (h₀ : Measured T a s e₀)
    (h₁ : Measured T a s e₁) : Measured T a s (.binary o e₀ e₁) := by
  refine ⟨fun {i j} limit hs _ => ?_⟩
  rw [Phrase.spells_binary] at hs
  obtain ⟨hopen, k, hs₀, ho, m, hs₁, hclose, rfl⟩ := hs
  have hne : (T.get k).kind ≠ Symbol.leftParen := ho ▸ o.symbol_ne_leftParen
  have hend : (T.get m).kind.isBinary = false := by rw [hclose]; rfl
  obtain ⟨n₀, hn₀⟩ := h₀.operand limit hs₀ hne
  obtain ⟨n₁, hn₁⟩ := h₁.chain hs₁ hclose rfl (by decide) (o.precedence + 1) limit
  -- Inside the parentheses the left operand starts a chain that the right one, an expression that
  -- binds tighter, ends.
  have hinner := takes_expression hn₀ (takes_climb ho o.one_le_precedence hn₁ hend)
  exact ⟨_, takes_parenthesised hopen hinner hclose⟩

mutual

theorem OperandAt.measured {i e n j} (h : OperandAt T a s i e n j) : Measured T a s e := by
  refine ⟨fun {i' j'} limit hs hnext => ?_⟩
  match h with
  | .int _ _ =>
    obtain ⟨⟨hk, hv⟩, rfl⟩ := hs
    exact ⟨_, takes_plain fun _ _ => .int hk (intLiteral_ok.2 ⟨hk, _, hv, rfl, rfl⟩)⟩
  | .double _ _ =>
    obtain ⟨⟨hk, hv⟩, rfl⟩ := hs
    exact ⟨_, takes_plain fun _ _ => .double hk (doubleLiteral_ok.2 ⟨hk, _, hv, rfl, rfl⟩)⟩
  | .string _ =>
    obtain ⟨⟨hk, _⟩, rfl⟩ := hs
    exact ⟨_, takes_plain fun _ _ => .string hk (stringLiteral_ok.2 ⟨rfl, rfl⟩)⟩
  | .load _ _ hx =>
    obtain ⟨⟨hk, ht⟩, rfl⟩ := hs
    rw [← ht] at hx
    exact ⟨_, takes_plain fun _ _ => .load hk hnext (load_ok.2 ⟨hk, _, hx, rfl, rfl⟩)⟩
  | .call _ _ h =>
    rw [Phrase.spells_call] at hs
    obtain ⟨⟨hk, _⟩, hp, k, hs, hc, rfl⟩ := hs
    obtain ⟨r, hr⟩ := h.measured limit hs hc
    exact ⟨_, takes_call hk hp (.many (hr _ (by dsimp only; omega)))⟩
  | .unary _ h =>
    obtain ⟨hk, hs⟩ := hs
    obtain ⟨n', hn⟩ := h.measured.operand limit hs hnext
    exact ⟨_, takes_applied hk hn⟩
  | .parenthesised _ h _ => exact h.measured.operand limit hs hnext

theorem ChainAt.measured {least i e n j} (h : ChainAt T a s least i e n j) :
    Measured T a s e := by
  match h with
  | .mk h₀ h => exact h.measured h₀.measured

theorem ClimbAt.measured {least i e₀ n₀ e n j} (h : ClimbAt T a s least i e₀ n₀ e n j)
    (h₀ : Measured T a s e₀) : Measured T a s e := by
  match h with
  | .done _ => exact h₀
  | .more _ _ h₁ h => exact h.measured (h₀.binary h₁.measured)

theorem ArgumentsAt.measured {i es ns l j} (h : ArgumentsAt T a s i es ns l j) {i' j'}
    (limit : Nat) (hs : Spells T i' (commaSeparated (Phrase.piecesOf es)) j')
    (hc : (T.get j').kind = Symbol.rightParen) :
    ∃ r, ∀ bound, T.size ≤ bound + i' → Takes (fun levels => manyFrom parenClose (do
        let argument ← expression levels 1
        separator
        return [argument]) bound) (Phrase.depthOf es) ⟨T, limit, s⟩ ⟨i', a⟩ r ⟨j' + 1, a⟩ := by
  match h with
  | .done _ =>
    cases hs
    exact ⟨_, fun bound _ => .many_nil (parenClose_ok.2 (.inl ⟨hc, rfl, rfl⟩)) bound⟩
  | .more h _ ht =>
    obtain ⟨k, m, hs, hsep, ht'⟩ := spells_commaSeparated hs hc
    obtain ⟨x, hk, hx, hp⟩ := hsep.kind
    obtain ⟨n, hn⟩ := h.measured.chain hs hk hx hp 1 limit
    obtain ⟨r, hr⟩ := ht.measured limit ht' hc
    -- What was read with enough levels is an expression, so it is no parenthesis and not empty.
    obtain ⟨_, hchain, -⟩ := readsChain_expression _ 1 (hn.run (Nat.le_refl _))
    have hlt := hchain.lt
    have hle := hchain.le_size
    have hmore : (T.get i').kind ≠ Symbol.rightParen := hchain.front_ne rfl
    have := hsep.le
    dsimp only at hlt hle
    refine ⟨([n] ++ r.1, r.2), fun bound hb => ?_⟩
    obtain ⟨b, rfl⟩ : ∃ b, bound = b + 1 := ⟨bound - 1, by omega⟩
    exact .many_cons (parenClose_ok.2 (.inr ⟨hmore, rfl, rfl⟩))
      (hn.after fun _ => bind_ok.2 ⟨_, _, hsep.run, rfl⟩) (hr b (by omega))

end

/-- A printed expression ends where its text does. -/
theorem ChainAt.takes {i e n j j'} (h : ChainAt T a s 1 i e n j) (limit : Nat)
    (hs : Spells T i e.pieces j') {x : Symbol} (hk : (T.get j').kind = x)
    (hx : x.isSeparator) (hp : x ≠ .leftParen) :
    j = j' ∧ Takes (fun levels => expression levels 1) (e.depth + 1) ⟨T, limit, s⟩ ⟨i, a⟩ n
      ⟨j, a⟩ := by
  obtain ⟨n', hn⟩ := h.measured.chain hs hk hx hp 1 limit
  obtain ⟨rfl, hend⟩ := hn.unique (h.run (T.size + 1) limit (by omega))
  cases hend
  exact ⟨rfl, hn⟩

theorem ArgumentsAt.takes {i es ns l j j'} (h : ArgumentsAt T a s i es ns l j) (limit : Nat)
    (hs : Spells T i (commaSeparated (Phrase.piecesOf es)) j')
    (hc : (T.get j').kind = Symbol.rightParen) :
    j = j' + 1 ∧ Takes (fun levels => arguments (expression levels 1)) (Phrase.depthOf es)
      ⟨T, limit, s⟩ ⟨i, a⟩ (ns, l) ⟨j, a⟩ := by
  obtain ⟨r, hr⟩ := h.measured limit hs hc
  have htakes : Takes (fun levels => arguments (expression levels 1)) (Phrase.depthOf es)
      ⟨T, limit, s⟩ ⟨i, a⟩ r ⟨j' + 1, a⟩ := .many (hr _ (by dsimp only; omega))
  obtain ⟨rfl, hend⟩ := htakes.unique (h.run (T.size + 1) limit (by omega))
  cases hend
  exact ⟨rfl, htakes⟩

end Expressions

/-- A printed declaration has its body where its text ends. -/
theorem HeadAt.ends {T : TokenList} {s i a g f r j b k} (h : HeadAt T s i a g f r j b)
    (hs : Spells T i g.pieces k) : j = k := by
  cases h with
  | mk _ _ _ _ h _ _ _ =>
    rw [Signature.spells_pieces] at hs
    obtain ⟨-, -, -, -, m, hs, hc, rfl⟩ := hs
    obtain ⟨ps', h', -⟩ := h.reread hs hc
    obtain ⟨l, hrun⟩ := h.run a 0 s
    obtain ⟨l', hrun'⟩ := h'.run a 0 s
    rw [hrun] at hrun'
    cases hrun'
    rfl

section Statements

variable {T : TokenList}

-- By induction on how the text is read. That it is spelled as it would be printed leaves one way
-- to do so, and the ends found on both ways are the same.
mutual

theorem StatementAt.takes {s i a c o j b j' depth} (h : StatementAt T s i a c o j b)
    (limit : Nat) (hs : Spells T i (c.pieces depth) j')
    (hnext : (T.get j').kind ≠ Keyword.elseKw) :
    j = j' ∧ Takes (fun levels => statement (block levels) (expression levels 1)) c.depth
      ⟨T, limit, s⟩ ⟨i, a⟩ o ⟨j, b⟩ := by
  match h with
  | .expression hk hi h _ =>
    rw [Clause.spells_expression] at hs
    obtain ⟨k, hs, hend, rfl⟩ := hs
    obtain ⟨rfl, hn⟩ := h.takes limit hs hend rfl (by decide)
    have hb : (T.get i).kind ≠ Symbol.leftBrace := h.front_ne rfl
    exact ⟨rfl, (takes_terminated hn hend).congr fun _ => statement_of_expression hk hb hi⟩
  | .declare ht hvoid hx ha h hd _ =>
    rw [Clause.spells_declare] at hs
    obtain ⟨-, -, -, k, hs, hend, rfl⟩ := hs
    obtain ⟨rfl, hn⟩ := h.takes limit hs hend rfl (by decide)
    have hdeclare := takes_variableDeclaration ht hvoid hx ha hn hd
    exact ⟨rfl, (takes_terminated hdeclare hend).congr fun _ => statement_of_type ht⟩
  | .assign (o := o) hk hx ho h _ =>
    rw [Clause.spells_assign] at hs
    obtain ⟨-, -, k, hs, hend, rfl⟩ := hs
    obtain ⟨rfl, hn⟩ := h.takes limit hs hend rfl (by decide)
    refine ⟨rfl, (takes_terminated (takes_assignment hk hx ho hn) hend).congr fun _ => ?_⟩
    simp only [statement, bind_run, peek_run, Nat.add_zero, hk, ho, o.isAssignment, if_true]
  | .print hk hp h _ =>
    rw [Clause.spells_print] at hs
    obtain ⟨-, -, k, hs, hc, hend, rfl⟩ := hs
    obtain ⟨rfl, hns⟩ := h.takes limit hs hc
    refine ⟨rfl, (takes_terminated (takes_printed hk hp hns) hend).congr fun _ => ?_⟩
    simp only [statement, bind_run, peek_run, Nat.add_zero, hk]
  | .giveBackNothing hk hend =>
    obtain ⟨-, -, rfl⟩ := hs
    refine ⟨rfl, .always fun levels => statement_ok.2 (.giveBack hk (terminated_ok.2 ?_))⟩
    exact ⟨_, _, returned_ok.2 ⟨hk, .inl ⟨hend, rfl, rfl⟩⟩, hend, rfl, rfl⟩
  | .giveBack hk h _ =>
    rw [Clause.spells_giveBack] at hs
    obtain ⟨-, k, hs, hend, rfl⟩ := hs
    obtain ⟨rfl, hn⟩ := h.takes limit hs hend rfl (by decide)
    have hmore : (T.get (i + 1)).kind ≠ Symbol.semicolon := h.front_ne rfl
    refine ⟨rfl, (takes_terminated (takes_returned hk hmore hn) hend).congr fun _ => ?_⟩
    simp only [statement, bind_run, peek_run, Nat.add_zero, hk]
  | .block h =>
    rw [Clause.spells_block] at hs
    obtain ⟨rfl, hb⟩ := h.takes limit hs
    refine ⟨rfl, (hb.returns fun body => some (Node.block body)).congr fun _ => ?_⟩
    simp only [statement, bind_run, peek_run, Nat.add_zero, h.starts]
  | .branch hk hp h hc hb _ =>
    rw [Clause.spells_branch] at hs
    obtain ⟨-, -, k, hs, hclose, hs'⟩ := hs
    obtain ⟨rfl, hn⟩ := h.takes limit hs hclose rfl (by decide)
    obtain ⟨rfl, hb⟩ := hb.takes limit hs'
    have hbranch := takes_branch hk (takes_condition hp hn hc) hb hnext
    refine ⟨rfl, (hbranch.returns some).congr fun _ => ?_⟩
    simp only [statement, bind_run, peek_run, Nat.add_zero, hk]
  | .branchElse hk hp h hc hb he hb₂ =>
    rw [Clause.spells_branchElse] at hs
    obtain ⟨-, -, k, hs, hclose, m, hs', -, hs₂⟩ := hs
    obtain ⟨rfl, hn⟩ := h.takes limit hs hclose rfl (by decide)
    obtain ⟨rfl, hb⟩ := hb.takes limit hs'
    obtain ⟨rfl, hb₂⟩ := hb₂.takes limit hs₂
    have hbranch := takes_branchElse hk (takes_condition hp hn hc) hb he hb₂
    refine ⟨rfl, (hbranch.returns some).congr fun _ => ?_⟩
    simp only [statement, bind_run, peek_run, Nat.add_zero, hk]
  | .whileLoop hk hp h hc hb =>
    rw [Clause.spells_whileLoop] at hs
    obtain ⟨-, -, k, hs, hclose, hs'⟩ := hs
    obtain ⟨rfl, hn⟩ := h.takes limit hs hclose rfl (by decide)
    obtain ⟨rfl, hb⟩ := hb.takes limit hs'
    have hloop := takes_whileLoop hk (takes_condition hp hn hc) hb
    refine ⟨rfl, (hloop.returns some).congr fun _ => ?_⟩
    simp only [statement, bind_run, peek_run, Nat.add_zero, hk]
  | .forLoop hk hp hi hx hin h hc hb =>
    rw [Clause.spells_forLoop] at hs
    obtain ⟨-, -, -, -, k, hs, hclose, hs'⟩ := hs
    obtain ⟨rfl, hn⟩ := h.takes limit hs hclose rfl (by decide)
    obtain ⟨rfl, hb⟩ := hb.takes limit hs'
    have hloop := takes_forLoop hk hp hi hx hin hn hc hb
    refine ⟨rfl, (hloop.returns some).congr fun _ => ?_⟩
    simp only [statement, bind_run, peek_run, Nat.add_zero, hk]
  | .function hh hb =>
    rw [Clause.spells_function] at hs
    obtain ⟨k, hs, hs'⟩ := hs
    obtain rfl := hh.ends hs
    obtain ⟨rfl, hb'⟩ := hb.takes limit hs'
    have hfunction := takes_functionDeclaration hh (by rw [hb.starts]; exact nofun) hb'
    refine ⟨rfl, (hfunction.returns fun _ => none).congr fun _ => ?_⟩
    simp only [statement, bind_run, peek_run, Nat.add_zero, hh.starts]
  | .native hh hn ht hend hr =>
    rw [Clause.spells_native] at hs
    obtain ⟨k, hs, -, -, -, rfl⟩ := hs
    obtain rfl := hh.ends hs
    exact ⟨rfl, .always fun _ =>
      statement_ok.2 (.function hh.starts (hh.run_native hn ht hend hr))⟩

theorem ItemsAt.takes {s i a cs ns j b j' depth} (h : ItemsAt T s i a cs ns j b)
    (limit : Nat) (hs : Spells T i (Clause.piecesOf depth cs) j')
    {close : Parser (Option Location)} {l : Location} {s' : Progress}
    (hclose : ∀ {t : Progress}, (T.get t.position).kind = Symbol.semicolon ∨
      (T.get t.position).kind.startsStatement → close ⟨T, limit, s⟩ t = .ok none t)
    (hend : close ⟨T, limit, s⟩ ⟨j, b⟩ = .ok (some l) s')
    (hnext : (T.get j').kind ≠ Keyword.elseKw ∧ (T.get j').kind ≠ Symbol.semicolon) :
    j = j' ∧ ∀ bound, T.size ≤ bound + i → Takes (fun levels =>
      manyFrom close (statementItem (statement (block levels) (expression levels 1))) bound)
      (Clause.depthOf cs) ⟨T, limit, s⟩ ⟨i, a⟩ (ns, l) s' := by
  match h with
  | .nil =>
    cases hs
    exact ⟨rfl, fun bound _ => .many_nil hend bound⟩
  | .semicolon hk h =>
    -- Nothing that is printed begins with a semicolon.
    cases cs with
    | nil =>
      cases hs
      exact absurd hk hnext.2
    | cons c cs =>
      rw [Clause.piecesOf, spells_append] at hs
      obtain ⟨_, hs, _⟩ := hs
      exact absurd hk (TokenKind.startsStatement_ne (Clause.starts hs).1).2.1
  | .cons h ht =>
    rw [Clause.piecesOf, spells_append] at hs
    obtain ⟨k, hs, hs'⟩ := hs
    obtain ⟨rfl, ho⟩ := h.takes limit hs (Clause.frontOf hs' hnext.1)
    obtain ⟨rfl, hns⟩ := ht.takes limit hs' hclose hend hnext
    have hlt := h.lt
    have hle := h.le_size
    have hstart := h.starts
    have hk := (TokenKind.startsStatement_ne hstart).2.1
    refine ⟨rfl, fun bound hb => ?_⟩
    obtain ⟨m, rfl⟩ : ∃ m, bound = m + 1 := ⟨bound - 1, by omega⟩
    exact .many_cons (hclose (.inr hstart)) (takes_statementItem hk ho) (hns m (by omega))

theorem BlockAt.takes {s i a cs body j b j' depth} (h : BlockAt T s i a cs body j b) (limit : Nat)
    (hs : Spells T i (Clause.braced depth (Clause.piecesOf (depth + 1) cs)) j') :
    j = j' ∧ Takes block (Clause.depthOf cs + 1) ⟨T, limit, s⟩ ⟨i, a⟩ body ⟨j, b⟩ := by
  match h with
  | .mk (j := m) hk hq h hr =>
    rw [Clause.spells_braced] at hs
    obtain ⟨-, k, hs, hc, rfl⟩ := hs
    obtain ⟨rfl, hm⟩ := h.takes limit hs braceClose_none
      (braceClose_ok.2 (.inl ⟨hr, rfl, rfl⟩)) (by rw [hc]; decide)
    cases hq
    exact ⟨rfl, takes_block (j := m + 1) (r := (_, _)) hk (hm _ (by omega))⟩

end

end Statements

end ScriptSyntax
