import ScriptSyntax.Proofs.Grammar.Completeness

/-!
The grammar of the language, as lists of kinds of token. It knows nothing of what names stand for,
what numbers are worth and how deep a text may nest; whatever the rules read is one of its words.
-/

namespace ScriptSyntax

namespace Language

open TokenKind

/-- The types of variables and of parameters. -/
def isVariableType : TokenKind → Bool
  | .keyword .intKw | .keyword .doubleKw | .keyword .stringKw => true
  | _ => false

mutual

inductive Operand : List TokenKind → Prop
  | int : Operand [intLiteral]
  | double : Operand [doubleLiteral]
  | string : Operand [stringLiteral]
  | name : Operand [identifier]
  | call {w} : Arguments w →
    Operand (identifier :: symbol .leftParen :: w ++ [symbol .rightParen])
  | unary {k w} : k.isUnary → Operand w → Operand (k :: w)
  | parenthesised {w} : Operation 1 w →
    Operand (symbol .leftParen :: w ++ [symbol .rightParen])

/-- Operands with operators of at least the given power between them. What stands behind an operator
binds tighter than it does. -/
inductive Operation : Nat → List TokenKind → Prop
  | operand {least w} : Operand w → Operation least w
  | binary {least v k w} : Operation least v → k.isBinary → least ≤ k.precedence →
    Operation (k.precedence + 1) w → Operation least (v ++ k :: w)

/-- Expressions with commas between them, and one more comma at the end if wanted. -/
inductive Arguments : List TokenKind → Prop
  | none : Arguments []
  | last {w} : Operation 1 w → Arguments w
  | more {v w} : Operation 1 v → Arguments w → Arguments (v ++ symbol .comma :: w)

end

/-- Types and names with commas between them, and one more comma at the end if wanted. -/
inductive Parameters : List TokenKind → Prop
  | none : Parameters []
  | last {k} : isVariableType k → Parameters [k, identifier]
  | more {k w} : isVariableType k → Parameters w →
    Parameters (k :: identifier :: symbol .comma :: w)

/-- A function up to its body. -/
inductive Head : List TokenKind → Prop
  | mk {k w} : k.isTypeName → Parameters w →
    Head (keyword .functionKw :: k :: identifier :: symbol .leftParen :: w ++ [symbol .rightParen])

/-- A condition in parentheses. -/
inductive Condition : List TokenKind → Prop
  | mk {w} : Operation 1 w → Condition (symbol .leftParen :: w ++ [symbol .rightParen])

mutual

inductive Statement : List TokenKind → Prop
  | expression {w} : Operation 1 w → Statement (w ++ [symbol .semicolon])
  | declare {k w} : isVariableType k → Operation 1 w →
    Statement (k :: identifier :: symbol .assign :: w ++ [symbol .semicolon])
  | assign {k w} : k.isAssignment → Operation 1 w →
    Statement (identifier :: k :: w ++ [symbol .semicolon])
  | print {w} : Arguments w →
    Statement (keyword .printKw :: symbol .leftParen :: w ++
      [symbol .rightParen, symbol .semicolon])
  | giveBackNothing : Statement [keyword .returnKw, symbol .semicolon]
  | giveBack {w} : Operation 1 w →
    Statement (keyword .returnKw :: w ++ [symbol .semicolon])
  | block {w} : Block w → Statement w
  | branch {c w} : Condition c → Block w → Statement (keyword .ifKw :: c ++ w)
  | branchElse {c w v} : Condition c → Block w → Block v →
    Statement (keyword .ifKw :: c ++ (w ++ keyword .elseKw :: v))
  | whileLoop {c w} : Condition c → Block w → Statement (keyword .whileKw :: c ++ w)
  | forLoop {v w} : Operation 1 v → Block w →
    Statement (keyword .forKw :: symbol .leftParen :: identifier :: keyword .inKw :: v ++
      symbol .rightParen :: w)
  | function {h w} : Head h → Block w → Statement (h ++ w)
  | native {h} : Head h →
    Statement (h ++ [keyword .nativeKw, stringLiteral, symbol .semicolon])

/-- Statements one after another; semicolons may stand between them. -/
inductive Statements : List TokenKind → Prop
  | nil : Statements []
  | semicolon {w} : Statements w → Statements (symbol .semicolon :: w)
  | cons {v w} : Statement v → Statements w → Statements (v ++ w)

inductive Block : List TokenKind → Prop
  | mk {w} : Statements w → Block (symbol .leftBrace :: w ++ [symbol .rightBrace])

end

end Language

namespace TokenList

def kinds (T : TokenList) : List TokenKind := T.toList.map Token.kind

/-- The kinds of the tokens from slot `i` up to `j`. -/
def Reads (T : TokenList) : Nat → List TokenKind → Nat → Prop
  | i, [], j => i = j
  | i, k :: w, j => (T.get i).kind = k ∧ T.Reads (i + 1) w j

variable {T : TokenList} {i j : Nat} {k : TokenKind} {v w : List TokenKind}

@[simp] theorem reads_nil : T.Reads i [] j ↔ i = j := Iff.rfl

@[simp] theorem reads_cons :
    T.Reads i (k :: w) j ↔ (T.get i).kind = k ∧ T.Reads (i + 1) w j := Iff.rfl

@[simp] theorem reads_append : T.Reads i (v ++ w) j ↔ ∃ m, T.Reads i v m ∧ T.Reads m w j := by
  induction v generalizing i with
  | nil => simp
  | cons k v ih => simp [ih, and_assoc]

end TokenList

open TokenList

variable {T : TokenList}

theorem isVariableType_of_ofKind? {k : TokenKind} {t : ValueType}
    (h : ValueType.ofKind? k = some t) (ht : t ≠ .void) : Language.isVariableType k := by
  unfold ValueType.ofKind? at h
  split at h <;> cases h <;> first | rfl | exact absurd rfl ht

theorem isTypeName_of_ofKind? {k : TokenKind} {t : ValueType}
    (h : ValueType.ofKind? k = some t) : k.isTypeName := by
  rw [← ValueType.isSome_ofKind?, h]
  rfl

theorem UnaryOperator.isUnary (o : UnaryOperator) : (o.symbol : TokenKind).isUnary := by
  cases o <;> rfl

mutual

theorem OperandAt.word {a s i e n j} (h : OperandAt T a s i e n j) :
    ∃ w, Language.Operand w ∧ T.Reads i w j := by
  match h with
  | .int hk _ => exact ⟨_, .int, hk, rfl⟩
  | .double hk _ => exact ⟨_, .double, hk, rfl⟩
  | .string hk => exact ⟨_, .string, hk, rfl⟩
  | .load hk _ _ => exact ⟨_, .name, hk, rfl⟩
  | .call hk hp h =>
    obtain ⟨w, m, hA, hw, hm⟩ := h.word
    exact ⟨_, .call hA, hk, hp, reads_append.2 ⟨m, hw, hm⟩⟩
  | .unary (o := o) hk h =>
    obtain ⟨w, hO, hw⟩ := h.word
    exact ⟨_, .unary o.isUnary hO, hk, hw⟩
  | .parenthesised hk h hc =>
    obtain ⟨w, hO, hw⟩ := h.word
    exact ⟨_, .parenthesised hO, hk, reads_append.2 ⟨_, hw, hc, rfl⟩⟩

theorem ChainAt.word {a s least i e n j} (h : ChainAt T a s least i e n j) :
    ∃ w, Language.Operation least w ∧ T.Reads i w j := by
  match h with
  | .mk h₀ h =>
    obtain ⟨w, hO, hw⟩ := h₀.word
    exact h.word (.operand hO) hw

theorem ClimbAt.word {a s least m i e₀ n₀ e n j v} (h : ClimbAt T a s least i e₀ n₀ e n j)
    (hO : Language.Operation least v) (hv : T.Reads m v i) :
    ∃ w, Language.Operation least w ∧ T.Reads m w j := by
  match h with
  | .done _ => exact ⟨v, hO, hv⟩
  | .more (o := o) hk hp h₁ h =>
    obtain ⟨w, hO₁, hw⟩ := h₁.word
    exact h.word (.binary hO o.isBinary hp hO₁) (reads_append.2 ⟨_, hv, hk, hw⟩)

/-- The members of a list, and the parenthesis behind them. -/
theorem ArgumentsAt.word {a s i es ns l j} (h : ArgumentsAt T a s i es ns l j) :
    ∃ w m, Language.Arguments w ∧ T.Reads i w m ∧ T.Reads m [.symbol .rightParen] j := by
  match h with
  | .done hk => exact ⟨[], i, .none, rfl, hk, rfl⟩
  | .more h (.comma hc) ht =>
    obtain ⟨v, hO, hv⟩ := h.word
    obtain ⟨w, m, hA, hw, hm⟩ := ht.word
    exact ⟨_, m, .more hO hA, reads_append.2 ⟨_, hv, hc, hw⟩, hm⟩
  | .more h (.last hc) (.done _) =>
    obtain ⟨v, hO, hv⟩ := h.word
    exact ⟨v, _, .last hO, hv, hc, rfl⟩
  | .more _ (.last hc) (.more h' _ _) =>
    -- No expression begins with the closing parenthesis.
    have hst := h'.starts
    rw [hc] at hst
    exact nomatch hst

end

theorem ParametersAt.word {i ps j} (h : ParametersAt T i ps j) :
    ∃ w m, Language.Parameters w ∧ T.Reads i w m ∧ T.Reads m [.symbol .rightParen] j := by
  induction h with
  | @done i hk => exact ⟨[], i, .none, rfl, hk, rfl⟩
  | @more i t j ps k ht hv hn hs hps ih =>
    have hk := isVariableType_of_ofKind? ht hv
    cases hs with
    | comma hc =>
      obtain ⟨w, m, hP, hw, hm⟩ := ih
      exact ⟨_, m, .more hk hP, ⟨rfl, hn, hc, hw⟩, hm⟩
    | last hc =>
      cases hps with
      | done => exact ⟨_, _, .last hk, ⟨rfl, hn, rfl⟩, hc, rfl⟩
      | more ht' =>
        rw [hc] at ht'
        exact nomatch ht'

theorem HeadAt.word {s i a g f q j b} (h : HeadAt T s i a g f q j b) :
    ∃ w, Language.Head w ∧ T.Reads i w j := by
  cases h with
  | mk hk ht hn hp hps =>
    obtain ⟨w, m, hP, hw, hm⟩ := hps.word
    exact ⟨_, .mk (isTypeName_of_ofKind? ht) hP, hk, rfl, hn, hp, reads_append.2 ⟨m, hw, hm⟩⟩

theorem ChainAt.condition_word {a s i e n j} (hp : (T.get i).kind = Symbol.leftParen)
    (h : ChainAt T a s 1 (i + 1) e n j) (hc : (T.get j).kind = Symbol.rightParen) :
    ∃ w, Language.Condition w ∧ T.Reads i w (j + 1) := by
  obtain ⟨w, hO, hw⟩ := h.word
  exact ⟨_, .mk hO, hp, reads_append.2 ⟨_, hw, hc, rfl⟩⟩

-- Rule by rule, each with its production. Scopes and names are forgotten; the words are put
-- together from the kinds of token that the rules ask for.
mutual

theorem StatementAt.word {s i a c o j b} (h : StatementAt T s i a c o j b) :
    ∃ w, Language.Statement w ∧ T.Reads i w j := by
  match h with
  | .expression _ _ h hs =>
    obtain ⟨w, hO, hw⟩ := h.word
    exact ⟨_, .expression hO, reads_append.2 ⟨_, hw, hs, rfl⟩⟩
  | .declare ht hv hn ha h _ hs =>
    obtain ⟨w, hO, hw⟩ := h.word
    exact ⟨_, .declare (isVariableType_of_ofKind? ht hv) hO, rfl, hn, ha,
      reads_append.2 ⟨_, hw, hs, rfl⟩⟩
  | .assign (o := o) hn _ ho h hs =>
    obtain ⟨w, hO, hw⟩ := h.word
    exact ⟨_, .assign o.isAssignment hO, hn, ho, reads_append.2 ⟨_, hw, hs, rfl⟩⟩
  | .print hk hp h hs =>
    obtain ⟨w, m, hA, hw, hc, rfl⟩ := h.word
    exact ⟨_, .print hA, hk, hp, reads_append.2 ⟨m, hw, hc, hs, rfl⟩⟩
  | .giveBackNothing hk hs => exact ⟨_, .giveBackNothing, hk, hs, rfl⟩
  | .giveBack hk h hs =>
    obtain ⟨w, hO, hw⟩ := h.word
    exact ⟨_, .giveBack hO, hk, reads_append.2 ⟨_, hw, hs, rfl⟩⟩
  | .block hb =>
    obtain ⟨w, hB, hw⟩ := hb.word
    exact ⟨w, .block hB, hw⟩
  | .branch hk hp h hc hb _ =>
    obtain ⟨v, hC, hv⟩ := h.condition_word hp hc
    obtain ⟨w, hB, hw⟩ := hb.word
    exact ⟨_, .branch hC hB, hk, reads_append.2 ⟨_, hv, hw⟩⟩
  | .branchElse hk hp h hc hb he hb' =>
    obtain ⟨v, hC, hv⟩ := h.condition_word hp hc
    obtain ⟨w, hB, hw⟩ := hb.word
    obtain ⟨w', hB', hw'⟩ := hb'.word
    exact ⟨_, .branchElse hC hB hB', hk,
      reads_append.2 ⟨_, hv, reads_append.2 ⟨_, hw, he, hw'⟩⟩⟩
  | .whileLoop hk hp h hc hb =>
    obtain ⟨v, hC, hv⟩ := h.condition_word hp hc
    obtain ⟨w, hB, hw⟩ := hb.word
    exact ⟨_, .whileLoop hC hB, hk, reads_append.2 ⟨_, hv, hw⟩⟩
  | .forLoop hk hp hn _ hi h hc hb =>
    obtain ⟨v, hO, hv⟩ := h.word
    obtain ⟨w, hB, hw⟩ := hb.word
    exact ⟨_, .forLoop hO hB, hk, hp, hn, hi, reads_append.2 ⟨_, hv, hc, hw⟩⟩
  | .function hh hb =>
    obtain ⟨v, hH, hv⟩ := hh.word
    obtain ⟨w, hB, hw⟩ := hb.word
    exact ⟨_, .function hH hB, reads_append.2 ⟨_, hv, hw⟩⟩
  | .native hh hk ht hs _ =>
    obtain ⟨v, hH, hv⟩ := hh.word
    exact ⟨_, .native hH, reads_append.2 ⟨_, hv, hk, ht, hs, rfl⟩⟩

theorem ItemsAt.word {s i a cs ns j b} (h : ItemsAt T s i a cs ns j b) :
    ∃ w, Language.Statements w ∧ T.Reads i w j := by
  match h with
  | .nil => exact ⟨[], .nil, rfl⟩
  | .semicolon hk h =>
    obtain ⟨w, hS, hw⟩ := h.word
    exact ⟨_, .semicolon hS, hk, hw⟩
  | .cons h ht =>
    obtain ⟨v, hS, hv⟩ := h.word
    obtain ⟨w, hT, hw⟩ := ht.word
    exact ⟨_, .cons hS hT, reads_append.2 ⟨_, hv, hw⟩⟩

theorem BlockAt.word {s i a cs block j b} (h : BlockAt T s i a cs block j b) :
    ∃ w, Language.Block w ∧ T.Reads i w j := by
  match h with
  | .mk hk _ h hc =>
    obtain ⟨w, hS, hw⟩ := h.word
    exact ⟨_, .mk hS, hk, reads_append.2 ⟨_, hw, hc, rfl⟩⟩

end

end ScriptSyntax
