import ScriptSyntax.Proofs.Grammar.Derivation

/-!
Every rule moves forward, and none goes past the end of the list.
-/

namespace ScriptSyntax

namespace TokenList

variable {l : TokenList} {i : Nat}

theorem kind_of_size_le (h : l.size ≤ i) :
    (l.get i).kind = .endOfInput ∨ (l.get i).kind = .undefined := by
  rcases Nat.eq_or_lt_of_le h with rfl | h
  · exact Or.inl (by rw [get_size]; rfl)
  · exact Or.inr (by rw [get_of_size_lt h]; rfl)

/-- A slot whose kind is that of a token holds one. -/
theorem lt_size_of_kind {k : TokenKind} (h : (l.get i).kind = k)
    (hne : k ≠ .endOfInput ∧ k ≠ .undefined) : i < l.size := by
  refine Nat.lt_of_not_le fun hn => ?_
  rcases kind_of_size_le hn with hk | hk
  · exact hne.1 (h.symm.trans hk)
  · exact hne.2 (h.symm.trans hk)

theorem lt_size_of_symbol {x : Symbol} (h : (l.get i).kind = x) : i < l.size :=
  lt_size_of_kind h ⟨nofun, nofun⟩

theorem lt_size_of_type {t : ValueType} (h : ValueType.ofKind? (l.get i).kind = some t) :
    i < l.size := by
  refine Nat.lt_of_not_le fun hn => ?_
  rcases kind_of_size_le hn with hk | hk <;> rw [hk] at h <;> exact nomatch h

end TokenList

open TokenList

variable {T : TokenList}

theorem SeparatorAt.le {i j} (h : SeparatorAt T i j) : i ≤ j := by
  cases h <;> omega

mutual

theorem OperandAt.lt {a s i j e n} (h : OperandAt T a s i e n j) : i < j := by
  match h with
  | .int _ _ | .double _ _ | .string _ | .load _ _ _ => exact Nat.lt_succ_self i
  | .call _ _ h => have := h.lt; omega
  | .unary _ h => have := h.lt; omega
  | .parenthesised _ h _ => have := h.lt; omega

theorem ChainAt.lt {a s i j least e n} (h : ChainAt T a s least i e n j) : i < j := by
  match h with
  | .mk h₀ h => exact Nat.lt_of_lt_of_le h₀.lt h.le

theorem ClimbAt.le {a s i j least e₀ n₀ e n} (h : ClimbAt T a s least i e₀ n₀ e n j) :
    i ≤ j := by
  match h with
  | .done _ => exact Nat.le_refl i
  | .more _ _ h₁ h => have := h₁.lt; have := h.le; omega

theorem ArgumentsAt.lt {a s i j es ns l} (h : ArgumentsAt T a s i es ns l j) : i < j := by
  match h with
  | .done _ => exact Nat.lt_succ_self i
  | .more h hs ht => have := h.lt; have := hs.le; have := ht.lt; omega

end

mutual

theorem OperandAt.le_size {a s i j e n} (h : OperandAt T a s i e n j) : j ≤ T.size := by
  match h with
  | .int h _ | .double h _ | .string h | .load h _ _ => exact lt_size_of_kind h (by decide)
  | .call _ _ h => exact h.le_size
  | .unary _ h => exact h.le_size
  | .parenthesised _ _ h => exact lt_size_of_kind h (by decide)

theorem ChainAt.le_size {a s i j least e n} (h : ChainAt T a s least i e n j) :
    j ≤ T.size := by
  match h with
  | .mk h₀ h => exact h.le_size h₀.le_size

theorem ClimbAt.le_size {a s i j least e₀ n₀ e n} (h : ClimbAt T a s least i e₀ n₀ e n j)
    (hi : i ≤ T.size) : j ≤ T.size := by
  match h with
  | .done _ => exact hi
  | .more _ _ h₁ h => exact h.le_size h₁.le_size

theorem ArgumentsAt.le_size {a s i j es ns l} (h : ArgumentsAt T a s i es ns l j) :
    j ≤ T.size := by
  match h with
  | .done h => exact lt_size_of_kind h (by decide)
  | .more _ _ h => exact h.le_size

end

theorem ParametersAt.lt {i j ps} (h : ParametersAt T i ps j) : i < j := by
  induction h with
  | done => exact Nat.lt_succ_self _
  | more _ _ _ hs _ ih => have := hs.le; omega

theorem HeadAt.lt {s i a g f q j b} (h : HeadAt T s i a g f q j b) : i < j := by
  cases h with
  | mk _ _ _ _ h => have := h.lt; omega

mutual

theorem StatementAt.lt {s i a c n j b} (h : StatementAt T s i a c n j b) : i < j := by
  match h with
  | .expression _ _ h _ | .giveBack _ h _ | .assign _ _ _ h _ | .declare _ _ _ _ h _ _ =>
    have := h.lt; omega
  | .print _ _ h _ => have := h.lt; omega
  | .giveBackNothing _ _ => omega
  | .block h => exact h.lt
  | .branch _ _ h _ hb _ | .whileLoop _ _ h _ hb => have := h.lt; have := hb.lt; omega
  | .branchElse _ _ h _ hb _ hb' => have := h.lt; have := hb.lt; have := hb'.lt; omega
  | .forLoop _ _ _ _ _ h _ hb => have := h.lt; have := hb.lt; omega
  | .function h hb => exact Nat.lt_trans h.lt hb.lt
  | .native h _ _ _ _ => have := h.lt; omega

theorem ItemsAt.le {s i a cs ns j b} (h : ItemsAt T s i a cs ns j b) : i ≤ j := by
  match h with
  | .nil => exact Nat.le_refl i
  | .semicolon _ h => have := h.le; omega
  | .cons h ht => have := h.lt; have := ht.le; omega

theorem BlockAt.lt {s i a cs block j b} (h : BlockAt T s i a cs block j b) : i < j := by
  match h with
  | .mk _ _ h _ => have := h.le; omega

end

theorem BlockAt.le_size {s i a cs block j b} (h : BlockAt T s i a cs block j b) :
    j ≤ T.size := by
  cases h with
  | mk _ _ _ h => exact lt_size_of_kind h (by decide)

theorem StatementAt.le_size {s i a c n j b} (h : StatementAt T s i a c n j b) :
    j ≤ T.size := by
  cases h with
  | expression _ _ _ h | giveBackNothing _ h | giveBack _ _ h | assign _ _ _ _ h
  | declare _ _ _ _ _ _ h | print _ _ _ h | native _ _ _ h => exact lt_size_of_kind h (by decide)
  | block h | branch _ _ _ _ h | branchElse _ _ _ _ _ _ h | whileLoop _ _ _ _ h
  | forLoop _ _ _ _ _ _ _ h | function _ h => exact h.le_size

theorem ItemsAt.le_size {s i a cs ns j b} (h : ItemsAt T s i a cs ns j b)
    (hi : i ≤ T.size) : j ≤ T.size := by
  match h with
  | .nil => exact hi
  | .semicolon h ht => exact ht.le_size (lt_size_of_kind h (by decide))
  | .cons h ht => exact ht.le_size h.le_size

end ScriptSyntax
