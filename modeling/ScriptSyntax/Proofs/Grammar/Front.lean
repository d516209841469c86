import ScriptSyntax.Proofs.Grammar.Extent

/-!
What expressions and statements begin with.
-/

namespace ScriptSyntax

namespace TokenKind

/-- The kinds of token that an operand begins with. -/
def startsOperand : TokenKind → Bool
  | .identifier | .intLiteral | .doubleLiteral | .stringLiteral => true
  | .symbol .not | .symbol .minus | .symbol .leftParen => true
  | _ => false

/-- The kinds of token in front of which a list of statements goes on. -/
def startsStatement : TokenKind → Bool
  | .keyword _ | .symbol .leftBrace => true
  | k => k.startsOperand

theorem startsOperand_ne {k : TokenKind} (h : k.startsOperand) :
    k ≠ Symbol.rightParen ∧ k ≠ Symbol.semicolon ∧ k ≠ .endOfInput ∧ k ≠ .undefined := by
  refine ⟨?_, ?_, ?_, ?_⟩ <;>
    · rintro rfl
      contradiction

theorem startsStatement_ne {k : TokenKind} (h : k.startsStatement) :
    k ≠ Symbol.rightBrace ∧ k ≠ Symbol.semicolon ∧ k ≠ .endOfInput ∧ k ≠ .undefined := by
  refine ⟨?_, ?_, ?_, ?_⟩ <;>
    · rintro rfl
      contradiction

theorem not_isKeyword_of_operand {k : TokenKind} (h : k.startsOperand) : ¬ k.isKeyword := by
  cases k with
  | keyword k => contradiction
  | _ => exact nofun

theorem startsStatement_of_operand {k : TokenKind} (h : k.startsOperand) :
    k.startsStatement ∧ k ≠ Keyword.elseKw := by
  cases k with
  | keyword k => contradiction
  | symbol s => cases s <;> first | exact ⟨rfl, nofun⟩ | contradiction
  | _ => exact ⟨h, nofun⟩

theorem startsStatement_of_type {k : TokenKind} {t : ValueType} (h : ValueType.ofKind? k = some t) :
    k.startsStatement ∧ k ≠ Keyword.elseKw := by
  cases k with
  | keyword k =>
    refine ⟨rfl, fun he => ?_⟩
    rw [he] at h
    exact nomatch h
  | _ => contradiction

end TokenKind

open TokenList

variable {T : TokenList} {i : Nat}

theorem lt_size_of_startsOperand (h : (T.get i).kind.startsOperand) : i < T.size :=
  lt_size_of_kind rfl (TokenKind.startsOperand_ne h).2.2

theorem lt_size_of_startsStatement (h : (T.get i).kind.startsStatement) : i < T.size :=
  lt_size_of_kind rfl (TokenKind.startsStatement_ne h).2.2

theorem OperandAt.starts {a s e n j} (h : OperandAt T a s i e n j) :
    (T.get i).kind.startsOperand := by
  cases h with
  | int h _ | double h _ | string h | load h _ _ | call h _ _ | parenthesised h _ _ => rw [h]; rfl
  | @unary _ o _ _ _ h _ => rw [h]; cases o <;> rfl

theorem ChainAt.starts {a s least e n j} (h : ChainAt T a s least i e n j) :
    (T.get i).kind.startsOperand := by
  cases h with
  | mk h _ => exact h.starts

/-- An expression does not begin with a token that none begins with. -/
theorem ChainAt.front_ne {a s least e n j} (h : ChainAt T a s least i e n j) {k : TokenKind}
    (hk : k.startsOperand = false) : (T.get i).kind ≠ k := by
  rintro rfl
  rw [h.starts] at hk
  exact Bool.noConfusion hk

theorem BlockAt.starts {s a cs block j b} (h : BlockAt T s i a cs block j b) :
    (T.get i).kind = Symbol.leftBrace := by
  cases h with
  | mk h _ _ _ => exact h

theorem HeadAt.starts {s a g f q j b} (h : HeadAt T s i a g f q j b) :
    (T.get i).kind = Keyword.functionKw := by
  cases h with
  | mk h _ _ _ _ _ _ _ => exact h

theorem StatementAt.starts {s a c o j b} (h : StatementAt T s i a c o j b) :
    (T.get i).kind.startsStatement := by
  cases h with
  | expression _ _ h _ => exact (TokenKind.startsStatement_of_operand h.starts).1
  | declare h _ _ _ _ _ _ => exact (TokenKind.startsStatement_of_type h).1
  | assign h _ _ _ _ | print h _ _ _ | giveBackNothing h _ | giveBack h _ _
  | branch h _ _ _ _ _ | branchElse h _ _ _ _ _ _ | whileLoop h _ _ _ _
  | forLoop h _ _ _ _ _ _ _ => rw [h]; rfl
  | block h => rw [h.starts]; rfl
  | function h _ | native h _ _ _ _ => rw [h.starts]; rfl

end ScriptSyntax
