import ScriptSyntax.Proofs.Grammar.Extent
import ScriptSyntax.Proofs.Token.Lexical
import ScriptSyntax.Proofs.Token.Rescan

/-!
What the tokens of a text say: the printed form of the clauses they are read as, apart from blanks,
parentheses, commas and semicolons.
-/

namespace ScriptSyntax

open Piece

/-- Punctuation that a text may have more or less of and still say the same. -/
def Symbol.isSeparator : Symbol → Bool
  | .leftParen | .rightParen | .comma | .semicolon => true
  | _ => false

def TokenKind.isSeparator : TokenKind → Bool
  | .symbol s => s.isSeparator
  | _ => false

def Piece.isSeparator : Piece → Bool
  | symbol s => s.isSeparator
  | _ => false

/-- The piece is what the token is read as. -/
def Token.Tells (t : Token) : Piece → Prop
  | symbol s => t.kind = s
  | keyword k => t.kind = k
  | type v => ValueType.ofKind? t.kind = some v
  | name n => t.kind = .identifier ∧ t.text = n
  | int value => t.kind = .intLiteral ∧ intLiteral? t.text = some value
  | double value => t.kind = .doubleLiteral ∧ doubleLiteral? t.text = some value
  | string value => t.kind = .stringLiteral ∧ t.text = value
  | space | newline | indent _ => False

/-- The tokens from slot `i` up to `j` say what the pieces do. -/
inductive Conveys (T : TokenList) : Nat → List Piece → Nat → Prop
  | done {i} : Conveys T i [] i
  | drop {i ps j} {s : Symbol} : (T.get i).kind = s → s.isSeparator → Conveys T (i + 1) ps j →
    Conveys T i ps j
  | add {i p ps j} : p.isBlank ∨ p.isSeparator → Conveys T i ps j → Conveys T i (p :: ps) j
  | token {i p ps j} : (T.get i).Tells p → Conveys T (i + 1) ps j → Conveys T i (p :: ps) j

section Conveys

variable {T : TokenList} {i j k : Nat} {ps qs : List Piece}

theorem Conveys.append (h : Conveys T i ps j) (h' : Conveys T j qs k) :
    Conveys T i (ps ++ qs) k := by
  induction h with
  | done => exact h'
  | drop hk hs _ ih => exact .drop hk hs (ih h')
  | add hp _ ih => exact .add hp (ih h')
  | token ht _ ih => exact .token ht (ih h')

theorem Conveys.dropLast (h : Conveys T i ps j) {s : Symbol} (hk : (T.get j).kind = s)
    (hs : s.isSeparator) : Conveys T i ps (j + 1) := by
  have := h.append (.drop hk hs .done)
  rwa [List.append_nil] at this

theorem Conveys.blank {p : Piece} (hp : p.isBlank) (h : Conveys T i ps j) :
    Conveys T i (p :: ps) j :=
  .add (.inl hp) h

theorem Conveys.separator {p : Piece} (hp : p.isSeparator) (h : Conveys T i ps j) :
    Conveys T i (p :: ps) j :=
  .add (.inr hp) h

/-- A token, printed with a space behind it. -/
theorem Conveys.word {p : Piece} (ht : (T.get i).Tells p) (h : Conveys T (i + 1) ps j) :
    Conveys T i (p :: space :: ps) j :=
  .token ht (.blank rfl h)

/-- The semicolon and the newline behind a statement. -/
theorem Conveys.statement (h : Conveys T i ps j) (hk : (T.get j).kind = Symbol.semicolon) :
    Conveys T i (ps ++ [symbol .semicolon, newline]) (j + 1) :=
  h.append (.token hk (.blank rfl .done))

theorem Conveys.commaSeparated {item : List Piece} {items : List (List Piece)}
    (h : Conveys T i item j) (hs : SeparatorAt T j k) {m : Nat}
    (ht : Conveys T k (commaSeparated items) m) :
    Conveys T i (commaSeparated (item :: items)) m := by
  have hitem : Conveys T i item k := by
    cases hs with
    | comma hk => exact h.dropLast hk rfl
    | last => exact h
  cases items with
  | nil =>
    have := hitem.append ht
    rwa [ScriptSyntax.commaSeparated, List.append_nil] at this
  | cons next items => exact hitem.append (.separator rfl (.blank rfl ht))

end Conveys

/-- Pieces other than infinite doubles. -/
def Piece.isFinite : Piece → Bool
  | double value => value.isFinite
  | _ => true

theorem ofKind?_ne_invalid (k : TokenKind) : ValueType.ofKind? k ≠ some .invalid := by
  cases k with
  | keyword k => cases k <;> decide
  | _ => exact nofun

theorem Token.Tells.valid {t : Token} {p : Piece} (h : t.Tells p) (ht : t.Lexical)
    (hp : p.isFinite) : p.Valid := by
  match p with
  | symbol _ | keyword _ => exact trivial
  | type v =>
    rintro rfl
    exact ofKind?_ne_invalid _ h
  | name n =>
    obtain ⟨hk, rfl⟩ := h
    rwa [Token.Lexical, hk] at ht
  | int value => exact intLiteral?_bounds h.2
  | double value => exact ⟨isNegative_doubleLiteral? h.2, hp⟩
  | string value =>
    obtain ⟨hk, rfl⟩ := h
    rwa [Token.Lexical, hk] at ht

theorem Token.Tells.lt_size {T : TokenList} {i : Nat} {p : Piece} (h : (T.get i).Tells p) :
    i < T.size := by
  match p with
  | symbol s => exact TokenList.lt_size_of_symbol h
  | keyword k => exact TokenList.lt_size_of_kind h ⟨nofun, nofun⟩
  | type v => exact TokenList.lt_size_of_type h
  | name n => exact TokenList.lt_size_of_kind h.1 (by decide)
  | int value => exact TokenList.lt_size_of_kind h.1 (by decide)
  | double value => exact TokenList.lt_size_of_kind h.1 (by decide)
  | string value => exact TokenList.lt_size_of_kind h.1 (by decide)

/-- What tokens say can be written again. -/
theorem Conveys.valid {T : TokenList} {i j : Nat} {ps : List Piece} (h : Conveys T i ps j)
    (hT : T.Lexical) : ∀ p ∈ ps, p.isFinite → p.Valid := by
  induction h with
  | done => exact nofun
  | drop _ _ _ ih => exact ih
  | @add _ p _ _ hp _ ih =>
    rintro q (_ | ⟨_, hq⟩) hf
    · cases p <;> first | trivial | exact absurd hp (by simp [isBlank, isSeparator])
    · exact ih q hq hf
  | token ht _ ih =>
    rintro q (_ | ⟨_, hq⟩) hf
    · exact ht.valid (hT _ ht.lt_size) hf
    · exact ih q hq hf

variable {T : TokenList}

mutual

theorem OperandAt.conveys {a s i e n j} (h : OperandAt T a s i e n j) : Conveys T i e.pieces j := by
  match h with
  | .int hk hv => exact .token ⟨hk, hv⟩ .done
  | .double hk hv => exact .token ⟨hk, hv⟩ .done
  | .string hk => exact .token ⟨hk, rfl⟩ .done
  | .load hk _ _ => exact .token ⟨hk, rfl⟩ .done
  | .call hk hp h =>
    exact .token ⟨hk, rfl⟩ (.token hp (h.conveys.append (.separator rfl .done)))
  | .unary hk h => exact .token hk h.conveys
  | .parenthesised hp h hc => exact .drop hp rfl (h.conveys.dropLast hc rfl)

theorem ChainAt.conveys {a s least i e n j} (h : ChainAt T a s least i e n j) :
    Conveys T i e.pieces j := by
  match h with
  | .mk h₀ h => exact h.conveys h₀.conveys

theorem ClimbAt.conveys {a s least i e₀ n₀ e n j k} (h : ClimbAt T a s least i e₀ n₀ e n j)
    (h₀ : Conveys T k e₀.pieces i) : Conveys T k e.pieces j := by
  match h with
  | .done _ => exact h₀
  | .more hk _ h₁ h =>
    refine h.conveys ?_
    simp only [Phrase.pieces, List.cons_append, List.append_assoc]
    exact .separator rfl (h₀.append (.blank rfl (.word hk
      (h₁.conveys.append (.separator rfl .done)))))

theorem ArgumentsAt.conveys {a s i es ns l j} (h : ArgumentsAt T a s i es ns l j) :
    Conveys T i (commaSeparated (Phrase.piecesOf es)) j := by
  match h with
  | .done hc => exact .drop hc rfl .done
  | .more h hs ht => exact h.conveys.commaSeparated hs ht.conveys

end

/-- A condition in parentheses, in front of a block. -/
theorem ChainAt.conveys_condition {a s i e n j k} {rest : List Piece}
    (hp : (T.get i).kind = Symbol.leftParen) (h : ChainAt T a s 1 (i + 1) e n j)
    (hc : (T.get j).kind = Symbol.rightParen) (hr : Conveys T (j + 1) rest k) :
    Conveys T i (symbol .leftParen :: (e.pieces ++ symbol .rightParen :: space :: rest)) k :=
  .token hp (h.conveys.append (.word hc hr))

theorem ParametersAt.conveys {i ps j} (h : ParametersAt T i ps j) (returns : ValueType)
    (name : String) : Conveys T i
      (commaSeparated ((signatureOf returns name ps).parameters.map Parameter.pieces)) j := by
  induction h with
  | done hc => exact .drop hc rfl .done
  | @more i t _ _ _ ht _ hn hs _ ih =>
    have hitem : Conveys T i (Parameter.pieces ⟨t, (T.get (i + 1)).text⟩) (i + 2) :=
      .word ht (.token ⟨hn, rfl⟩ .done)
    exact hitem.commaSeparated hs ih

theorem HeadAt.conveys {s i a signature f q j b} (h : HeadAt T s i a signature f q j b) :
    Conveys T i signature.pieces j := by
  cases h with
  | mk hk ht hn hp h _ _ =>
    exact .word hk (.word ht (.token ⟨hn, rfl⟩ (.token hp
      ((h.conveys _ _).append (.separator rfl (.blank rfl .done))))))

-- Each case writes the printed form of the clause from the front: blanks and brackets are added
-- where the text has none, a semicolon without a statement is dropped, and all other tokens tell
-- their piece.
mutual

theorem StatementAt.conveys {s i a c o j b} (h : StatementAt T s i a c o j b) (depth : Nat) :
    Conveys T i (c.pieces depth) j := by
  match h with
  | .expression _ _ h hs => exact .blank rfl (h.conveys.statement hs)
  | .declare ht _ hn ha h _ hs =>
    exact .blank rfl (.word ht (.word ⟨hn, rfl⟩ (.word ha (h.conveys.statement hs))))
  | .assign hn _ ho h hs =>
    exact .blank rfl (.word ⟨hn, rfl⟩ (.word ho (h.conveys.statement hs)))
  | .print hk hp h hs =>
    have hclose := h.conveys.append (.separator (p := symbol .rightParen) rfl .done)
    have hl := hclose.statement hs
    rw [List.append_assoc] at hl
    exact .blank rfl (.token hk (.token hp hl))
  | .giveBackNothing hk hs => exact .blank rfl (.token hk (Conveys.statement .done hs))
  | .giveBack hk h hs => exact .blank rfl (.word hk (h.conveys.statement hs))
  | .block h => exact .blank rfl ((h.conveys depth).append (.blank rfl .done))
  | .branch hk hp h hc hb _ | .whileLoop hk hp h hc hb =>
    have hbody := (hb.conveys depth).append (.blank (p := newline) rfl .done)
    simp only [Clause.pieces, List.cons_append, List.append_assoc]
    exact .blank rfl (.word hk (h.conveys_condition hp hc hbody))
  | .branchElse hk hp h hc hb he hb' =>
    have helse := (hb'.conveys depth).append (.blank (p := newline) rfl .done)
    have helse : Conveys T _ (space :: keyword .elseKw :: space :: _) _ :=
      .blank rfl (.word he helse)
    have hbody := (hb.conveys depth).append helse
    simp only [Clause.pieces, List.cons_append, List.append_assoc]
    exact .blank rfl (.word hk (h.conveys_condition hp hc hbody))
  | .forLoop hk hp hn _ hi h hc hb =>
    have hbody := (hb.conveys depth).append (.blank (p := newline) rfl .done)
    have hrange := h.conveys.append (.word (p := symbol .rightParen) hc hbody)
    simp only [Clause.pieces, List.cons_append, List.append_assoc]
    exact .blank rfl (.word hk (.token hp (.word ⟨hn, rfl⟩ (.word hi hrange))))
  | .function hh hb =>
    simp only [Clause.pieces, List.cons_append, List.append_assoc]
    exact .blank rfl (hh.conveys.append ((hb.conveys depth).append (.blank rfl .done)))
  | .native hh hk ht hs _ =>
    exact .blank rfl (hh.conveys.append (.word hk (.token ⟨ht, rfl⟩ (Conveys.statement .done hs))))

theorem ItemsAt.conveys {s i a cs ns j b} (h : ItemsAt T s i a cs ns j b) (depth : Nat) :
    Conveys T i (Clause.piecesOf depth cs) j := by
  match h with
  | .nil => exact .done
  | .semicolon hk h => exact .drop hk rfl (h.conveys depth)
  | .cons h ht => exact (h.conveys depth).append (ht.conveys depth)

theorem BlockAt.conveys {s i a cs block j b} (h : BlockAt T s i a cs block j b) (depth : Nat) :
    Conveys T i (Clause.braced depth (Clause.piecesOf (depth + 1) cs)) j := by
  match h with
  | .mk hk _ h hc =>
    exact .token hk (.blank rfl ((h.conveys (depth + 1)).append (.blank rfl (.token hc .done))))

end

end ScriptSyntax
