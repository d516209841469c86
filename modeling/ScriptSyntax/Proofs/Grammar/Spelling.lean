import ScriptSyntax.Proofs.Grammar.Conveyed
import ScriptSyntax.Proofs.Grammar.Front

/-!
The tokens of what is printed: those of each clause, one after another, and what it begins with.
-/

namespace ScriptSyntax

open Piece

/-- The tokens from slot `i` up to `j` are those of the pieces. -/
def Spells (T : TokenList) : Nat → List Piece → Nat → Prop
  | i, [], j => i = j
  | i, p :: ps, j =>
    if p.isBlank then Spells T i ps j else (T.get i).Tells p ∧ Spells T (i + 1) ps j

section Spells

variable {T : TokenList} {i j k : Nat} {ps qs : List Piece}

@[simp] theorem spells_nil : Spells T i [] j ↔ i = j := Iff.rfl

@[simp] theorem spells_symbol {s : Symbol} :
    Spells T i (symbol s :: ps) j ↔ (T.get i).kind = s ∧ Spells T (i + 1) ps j := Iff.rfl

@[simp] theorem spells_keyword {k : Keyword} :
    Spells T i (keyword k :: ps) j ↔ (T.get i).kind = k ∧ Spells T (i + 1) ps j := Iff.rfl

@[simp] theorem spells_type {t : ValueType} : Spells T i (type t :: ps) j ↔
    ValueType.ofKind? (T.get i).kind = some t ∧ Spells T (i + 1) ps j := Iff.rfl

@[simp] theorem spells_name {n : String} : Spells T i (name n :: ps) j ↔
    ((T.get i).kind = .identifier ∧ (T.get i).text = n) ∧ Spells T (i + 1) ps j := Iff.rfl

@[simp] theorem spells_string {v : String} : Spells T i (string v :: ps) j ↔
    ((T.get i).kind = .stringLiteral ∧ (T.get i).text = v) ∧ Spells T (i + 1) ps j := Iff.rfl

@[simp] theorem spells_space : Spells T i (space :: ps) j ↔ Spells T i ps j := Iff.rfl

@[simp] theorem spells_newline : Spells T i (newline :: ps) j ↔ Spells T i ps j := Iff.rfl

@[simp] theorem spells_indent {depth : Nat} :
    Spells T i (indent depth :: ps) j ↔ Spells T i ps j := Iff.rfl

@[simp] theorem spells_append :
    Spells T i (ps ++ qs) j ↔ ∃ k, Spells T i ps k ∧ Spells T k qs j := by
  induction ps generalizing i with
  | nil => simp [Spells]
  | cons p ps ih =>
    simp only [List.cons_append, Spells]
    split
    · exact ih
    · rw [ih]
      constructor
      · rintro ⟨ht, k, hk, hj⟩
        exact ⟨k, ⟨ht, hk⟩, hj⟩
      · rintro ⟨k, ⟨ht, hk⟩, hj⟩
        exact ⟨ht, k, hk, hj⟩

/-- The first member of a list that a parenthesis closes. -/
theorem spells_commaSeparated {item : List Piece} {items : List (List Piece)}
    (h : Spells T i (commaSeparated (item :: items)) k)
    (hk : (T.get k).kind = Symbol.rightParen) :
    ∃ j m, Spells T i item j ∧ SeparatorAt T j m ∧ Spells T m (commaSeparated items) k := by
  cases items with
  | nil => exact ⟨k, k, h, .last hk, rfl⟩
  | cons next items =>
    rw [commaSeparated] at h
    · simp only [spells_append, spells_symbol, spells_space] at h
      obtain ⟨j, hj, hc, ht⟩ := h
      exact ⟨j, j + 1, hj, .comma hc, ht⟩
    · exact List.cons_ne_nil next items

end Spells

theorem BinaryOperator.symbol_ne_leftParen (o : BinaryOperator) :
    (o.symbol : TokenKind) ≠ Symbol.leftParen := by
  cases o <;> decide

theorem BinaryOperator.one_le_precedence (o : BinaryOperator) : 1 ≤ o.precedence := by
  cases o <;> decide

namespace Phrase

variable {T : TokenList} {i j : Nat}

theorem spells_binary {o : BinaryOperator} {left right : Phrase} :
    Spells T i (binary o left right).pieces j ↔
      (T.get i).kind = Symbol.leftParen ∧ ∃ k, Spells T (i + 1) left.pieces k ∧
        (T.get k).kind = o.symbol ∧ ∃ m, Spells T (k + 1) right.pieces m ∧
        (T.get m).kind = Symbol.rightParen ∧ m + 1 = j := by
  simp [pieces]

theorem spells_call {callee : String} {arguments : List Phrase} :
    Spells T i (call callee arguments).pieces j ↔
      ((T.get i).kind = .identifier ∧ (T.get i).text = callee) ∧
        (T.get (i + 1)).kind = Symbol.leftParen ∧
        ∃ k, Spells T (i + 2) (commaSeparated (piecesOf arguments)) k ∧
        (T.get k).kind = Symbol.rightParen ∧ k + 1 = j := by
  simp [pieces]

theorem starts {e : Phrase} (h : Spells T i e.pieces j) : (T.get i).kind.startsOperand := by
  cases e with
  | int | double | string | name | call =>
    obtain ⟨⟨hk, _⟩, _⟩ := h
    rw [hk]
    rfl
  | unary o =>
    obtain ⟨hk, _⟩ := h
    rw [hk]
    cases o <;> rfl
  | binary =>
    obtain ⟨hk, _⟩ := h
    rw [hk]
    rfl

/-- Behind the name that an expression begins with, it ends or its arguments stand. -/
theorem behind_identifier {e : Phrase} (h : Spells T i e.pieces j)
    (hi : (T.get i).kind = .identifier) : i + 1 = j ∨ (T.get (i + 1)).kind = Symbol.leftParen := by
  cases e with
  | name => exact .inl h.2
  | call => exact .inr h.2.1
  | int | double | string =>
    rw [h.1.1] at hi
    contradiction
  | unary | binary =>
    rw [h.1] at hi
    contradiction

end Phrase

theorem Signature.spells_pieces {T : TokenList} {i j : Nat} {g : Signature} :
    Spells T i g.pieces j ↔
      (T.get i).kind = Keyword.functionKw ∧
        ValueType.ofKind? (T.get (i + 1)).kind = some g.returns ∧
        ((T.get (i + 2)).kind = .identifier ∧ (T.get (i + 2)).text = g.name) ∧
        (T.get (i + 3)).kind = Symbol.leftParen ∧
        ∃ k, Spells T (i + 4) (commaSeparated (g.parameters.map Parameter.pieces)) k ∧
        (T.get k).kind = Symbol.rightParen ∧ k + 1 = j := by
  simp [pieces]

namespace Clause

variable {T : TokenList} {i j depth : Nat}

/-! The blanks of a clause are left out here, so that `depth` matters for the lines in it alone. -/

theorem spells_braced {lines : List Piece} : Spells T i (braced depth lines) j ↔
    (T.get i).kind = Symbol.leftBrace ∧
      ∃ k, Spells T (i + 1) lines k ∧ (T.get k).kind = Symbol.rightBrace ∧ k + 1 = j := by
  simp [braced]

theorem spells_expression {e : Phrase} : Spells T i ((expression e).pieces depth) j ↔
    ∃ k, Spells T i e.pieces k ∧ (T.get k).kind = Symbol.semicolon ∧ k + 1 = j := by
  simp [pieces]

theorem spells_declare {t : ValueType} {x : String} {value : Phrase} :
    Spells T i ((declare t x value).pieces depth) j ↔
      ValueType.ofKind? (T.get i).kind = some t ∧
        ((T.get (i + 1)).kind = .identifier ∧ (T.get (i + 1)).text = x) ∧
        (T.get (i + 2)).kind = Symbol.assign ∧
        ∃ k, Spells T (i + 3) value.pieces k ∧ (T.get k).kind = Symbol.semicolon ∧ k + 1 = j := by
  simp [pieces]

theorem spells_assign {x : String} {o : AssignOperator} {value : Phrase} :
    Spells T i ((assign x o value).pieces depth) j ↔
      ((T.get i).kind = .identifier ∧ (T.get i).text = x) ∧ (T.get (i + 1)).kind = o.symbol ∧
        ∃ k, Spells T (i + 2) value.pieces k ∧ (T.get k).kind = Symbol.semicolon ∧ k + 1 = j := by
  simp [pieces]

theorem spells_print {arguments : List Phrase} :
    Spells T i ((print arguments).pieces depth) j ↔
      (T.get i).kind = Keyword.printKw ∧ (T.get (i + 1)).kind = Symbol.leftParen ∧
        ∃ k, Spells T (i + 2) (commaSeparated (Phrase.piecesOf arguments)) k ∧
        (T.get k).kind = Symbol.rightParen ∧ (T.get (k + 1)).kind = Symbol.semicolon ∧
        k + 2 = j := by
  simp [pieces]

theorem spells_giveBack {value : Phrase} :
    Spells T i ((giveBack (some value)).pieces depth) j ↔
      (T.get i).kind = Keyword.returnKw ∧
        ∃ k, Spells T (i + 1) value.pieces k ∧ (T.get k).kind = Symbol.semicolon ∧ k + 1 = j := by
  simp [pieces]

theorem spells_block {body : List Clause} : Spells T i ((block body).pieces depth) j ↔
    Spells T i (braced depth (piecesOf (depth + 1) body)) j := by
  simp [pieces]

theorem spells_branch {e : Phrase} {body : List Clause} :
    Spells T i ((branch e body none).pieces depth) j ↔
      (T.get i).kind = Keyword.ifKw ∧ (T.get (i + 1)).kind = Symbol.leftParen ∧
        ∃ k, Spells T (i + 2) e.pieces k ∧ (T.get k).kind = Symbol.rightParen ∧
        Spells T (k + 1) (braced depth (piecesOf (depth + 1) body)) j := by
  simp [pieces]

theorem spells_branchElse {e : Phrase} {body elseBody : List Clause} :
    Spells T i ((branch e body (some elseBody)).pieces depth) j ↔
      (T.get i).kind = Keyword.ifKw ∧ (T.get (i + 1)).kind = Symbol.leftParen ∧
        ∃ k, Spells T (i + 2) e.pieces k ∧ (T.get k).kind = Symbol.rightParen ∧
        ∃ m, Spells T (k + 1) (braced depth (piecesOf (depth + 1) body)) m ∧
        (T.get m).kind = Keyword.elseKw ∧
        Spells T (m + 1) (braced depth (piecesOf (depth + 1) elseBody)) j := by
  simp [pieces]

theorem spells_whileLoop {e : Phrase} {body : List Clause} :
    Spells T i ((whileLoop e body).pieces depth) j ↔
      (T.get i).kind = Keyword.whileKw ∧ (T.get (i + 1)).kind = Symbol.leftParen ∧
        ∃ k, Spells T (i + 2) e.pieces k ∧ (T.get k).kind = Symbol.rightParen ∧
        Spells T (k + 1) (braced depth (piecesOf (depth + 1) body)) j := by
  simp [pieces]

theorem spells_forLoop {x : String} {range : Phrase} {body : List Clause} :
    Spells T i ((forLoop x range body).pieces depth) j ↔
      (T.get i).kind = Keyword.forKw ∧ (T.get (i + 1)).kind = Symbol.leftParen ∧
        ((T.get (i + 2)).kind = .identifier ∧ (T.get (i + 2)).text = x) ∧
        (T.get (i + 3)).kind = Keyword.inKw ∧
        ∃ k, Spells T (i + 4) range.pieces k ∧ (T.get k).kind = Symbol.rightParen ∧
        Spells T (k + 1) (braced depth (piecesOf (depth + 1) body)) j := by
  simp [pieces]

theorem spells_function {signature : Signature} {body : List Clause} :
    Spells T i ((function signature body).pieces depth) j ↔
      ∃ k, Spells T i signature.pieces k ∧
        Spells T k (braced depth (piecesOf (depth + 1) body)) j := by
  simp [pieces]

theorem spells_native {signature : Signature} {target : String} :
    Spells T i ((native signature target).pieces depth) j ↔
      ∃ k, Spells T i signature.pieces k ∧ (T.get k).kind = Keyword.nativeKw ∧
        ((T.get (k + 1)).kind = .stringLiteral ∧ (T.get (k + 1)).text = target) ∧
        (T.get (k + 2)).kind = Symbol.semicolon ∧ k + 3 = j := by
  simp [pieces]

theorem starts {c : Clause} (h : Spells T i (c.pieces depth) j) :
    (T.get i).kind.startsStatement ∧ (T.get i).kind ≠ Keyword.elseKw := by
  match c with
  | .expression _ =>
    obtain ⟨_, h, _⟩ := spells_expression.1 h
    exact TokenKind.startsStatement_of_operand (Phrase.starts h)
  | .declare _ _ _ =>
    obtain ⟨ht, _⟩ := spells_declare.1 h
    exact TokenKind.startsStatement_of_type ht
  | .assign _ _ _ =>
    obtain ⟨⟨hk, _⟩, _⟩ := spells_assign.1 h
    rw [hk]
    exact ⟨rfl, nofun⟩
  | .print _ | .giveBack none | .giveBack (some _) | .block _ | .branch _ _ none
  | .branch _ _ (some _) | .whileLoop _ _ | .forLoop _ _ _ | .function _ _ | .native _ _ =>
    obtain ⟨hk, _⟩ := h
    rw [hk]
    exact ⟨rfl, by decide⟩

/-- No list of clauses begins with the branch that is taken otherwise. -/
theorem frontOf {cs : List Clause} (h : Spells T i (piecesOf depth cs) j)
    (hnext : (T.get j).kind ≠ Keyword.elseKw) : (T.get i).kind ≠ Keyword.elseKw := by
  cases cs with
  | nil =>
    cases h
    exact hnext
  | cons c cs =>
    rw [piecesOf, spells_append] at h
    obtain ⟨_, h, _⟩ := h
    exact (starts h).2

end Clause

end ScriptSyntax
