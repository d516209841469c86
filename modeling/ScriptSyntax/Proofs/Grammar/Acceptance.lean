import ScriptSyntax.Proofs.Grammar.Ending
import ScriptSyntax.Proofs.Grammar.Language

/-!
The words of the grammar are read to their ends. What can stop the parser in one of them is what a
name or a literal means, and never the order of the tokens.
-/

namespace ScriptSyntax

/-- Failures over what names, operators and literals mean, not over where tokens stand. -/
def Cause.concernsMeaning : Cause → Bool
  | integerLiteral _ | doubleLiteral _ | unknownVariable _ | variableDefined _ | functionDefined _
  | illegalOperator _ _ => true
  | _ => false

namespace Parser

variable {α β : Type} {T : TokenList} {i j k m : Nat} {P R : Nat → Prop}

/-- From slot `i` of `T` on, `p` gets to a slot that `P` holds of, unless what something means stops
it. -/
def Gets (T : TokenList) (p : Parser α) (i : Nat) (P : Nat → Prop) : Prop :=
  ∀ limit s a, Ends p ⟨T, limit, s⟩ ⟨i, a⟩ (fun _ t => P t.position) fun e _ =>
    e.cause.concernsMeaning

section Steps

variable {p : Parser α} {f : α → Parser β}

theorem Gets.bind (h : Gets T p i P) (hf : ∀ a k, P k → Gets T (f a) k R) :
    Gets T (p >>= f) i R := by
  intro limit s a
  rw [ends_bind]
  exact (h limit s a).imp (fun b t ht => hf b t.position ht limit s t.arena) fun _ _ he => he

theorem Gets.seq (h : Gets T p i (· = k)) (hf : ∀ a, Gets T (f a) k R) : Gets T (p >>= f) i R :=
  h.bind fun a _ hk => hk ▸ hf a

theorem Gets.imp (h : Gets T p i P) (hP : ∀ k, P k → R k) : Gets T p i R :=
  fun limit s a => (h limit s a).imp (fun _ t => hP t.position) fun _ _ he => he

theorem Gets.inNewScope (h : Gets T p i P) : Gets T (inNewScope p) i P :=
  fun limit _ _ => ends_inNewScope.2 (h limit _ _)

theorem gets_pure {a : α} (h : P i) : Gets T (pure a : Parser α) i P := fun _ _ _ => h

theorem gets_fail {cause : Cause} {l : Location} (h : cause.concernsMeaning) :
    Gets T (fail cause l : Parser α) i P := fun _ _ _ => h

theorem gets_scope : Gets T scope i (· = i) := fun _ _ _ => rfl

theorem gets_here : Gets T here i (· = i) := fun _ _ _ => rfl

theorem gets_get : Gets T (get : Parser Progress) i (· = i) := fun _ _ _ => rfl

theorem gets_modify {f : Arena → Arena} :
    Gets T (modify fun s => { s with arena := f s.arena }) i (· = i) := fun _ _ _ => rfl

/-- The kind that is looked at is known. -/
theorem Gets.peek {n : Nat} {f : TokenKind → Parser β} (h : Gets T (f (T.get (i + n)).kind) i R) :
    Gets T (peek n >>= f) i R := fun limit s a => ends_bind.2 (h limit s a)

theorem Gets.remaining {f : Nat → Parser β} (h : Gets T (f (T.size - i)) i R) :
    Gets T (remaining >>= f) i R := fun limit s a => ends_bind.2 (h limit s a)

theorem Gets.advance {f : Token → Parser β} (h : Gets T (f (T.get i)) (i + 1) R) :
    Gets T (advance >>= f) i R := fun limit s a => ends_bind.2 (h limit s a)

theorem gets_expect {kind : TokenKind} {what : String} (h : (T.get i).kind = kind) :
    Gets T (expect kind what) i (· = i + 1) :=
  fun _ _ _ => ends_expect.2 ⟨fun _ => rfl, fun hn => absurd h hn⟩

theorem gets_accept {kind : TokenKind} (h : (T.get i).kind = kind) {f : Bool → Parser β}
    (hf : Gets T (f true) (i + 1) R) : Gets T (accept kind >>= f) i R :=
  fun limit s a => ends_bind.2 (ends_accept.2 ⟨fun _ => hf limit s a, fun hn => absurd h hn⟩)

theorem gets_accept_not {kind : TokenKind} (h : (T.get i).kind ≠ kind) {f : Bool → Parser β}
    (hf : Gets T (f false) i R) : Gets T (accept kind >>= f) i R :=
  fun limit s a => ends_bind.2 (ends_accept.2 ⟨fun hk => absurd hk h, fun _ => hf limit s a⟩)

theorem gets_resolve {name : Token} : Gets T (resolve name) i (· = i) :=
  fun _ _ _ => ends_resolve.2 ⟨fun _ _ => rfl, fun _ => rfl⟩

theorem gets_define {type : ValueType} {name : Token} : Gets T (define type name) i (· = i) := by
  refine Gets.seq gets_scope fun owner => Gets.seq gets_get fun s => ?_
  cases s.arena.defineVariable owner ⟨type, name.text, owner, name.location⟩ false with
  | ok r => exact (gets_modify (f := fun _ => r.2)).seq fun _ => gets_pure rfl
  | error _ => exact gets_fail rfl

theorem gets_typeOf {t : Token} {voidAllowed : Bool} {type : ValueType}
    (h : ValueType.ofKind? t.kind = some type) (hv : type = .void → voidAllowed = true) :
    Gets T (typeOf t voidAllowed) i (· = i) := by
  unfold typeOf
  rw [h]
  dsimp only
  rw [if_neg]
  · exact gets_pure rfl
  · rintro ⟨rfl, hf⟩
    rw [hv rfl] at hf
    exact nomatch hf

end Steps

section Lists

/-! Loops over the members of a list, whatever their bound. -/

variable {close : Parser (Option β)} {item : Parser (List α)}

def Loops (T : TokenList) (close : Parser (Option β)) (item : Parser (List α)) (i : Nat)
    (P : Nat → Prop) : Prop :=
  ∀ bound, T.size ≤ bound + i → Gets T (manyFrom close item bound) i P

theorem Loops.done {P : Nat → Prop}
    (h : ∀ limit s a, ∃ l t, close ⟨T, limit, s⟩ ⟨i, a⟩ = .ok (some l) t ∧ P t.position) :
    Loops T close item i P := by
  have hclose (more : Parser (List α × β)) : Gets T (closeOr close item more) i P := by
    intro limit s a
    obtain ⟨l, t, hl, hP⟩ := h limit s a
    rw [closeOr, ends_bind, Ends, hl]
    exact hP
  intro bound _
  cases bound with
  | zero => exact hclose _
  | succ bound => exact hclose _

theorem Loops.more (h : ∀ limit s a, close ⟨T, limit, s⟩ ⟨i, a⟩ = .ok none ⟨i, a⟩)
    (hi : Gets T item i (· = k)) (hlt : i < k) (hs : i < T.size) (hk : Loops T close item k P) :
    Loops T close item i P := by
  intro bound hb
  obtain ⟨bound, rfl⟩ : ∃ b, bound = b + 1 := ⟨bound - 1, by omega⟩
  intro limit s a
  rw [manyFrom, closeOr, ends_bind, Ends, h]
  exact hi.seq (fun _ => (hk bound (by omega)).bind fun _ _ hm => gets_pure hm) limit s a

theorem Loops.gets (h : Loops T close item i P) : Gets T (many close item) i P :=
  fun limit s a => ends_bind.2 (h (T.size - i) (by omega) limit s a)

theorem parenClose_none (h : (T.get i).kind ≠ Symbol.rightParen) (limit : Nat) (s : ScopeId)
    (a : Arena) : parenClose ⟨T, limit, s⟩ ⟨i, a⟩ = .ok none ⟨i, a⟩ :=
  parenClose_ok.2 (Or.inr ⟨h, rfl, rfl⟩)

theorem Loops.parenClose (h : (T.get i).kind = Symbol.rightParen) :
    Loops T parenClose item i (· = i + 1) :=
  .done fun _ _ _ => ⟨_, _, parenClose_ok.2 (Or.inl ⟨h, rfl, rfl⟩), rfl⟩

end Lists

end Parser

open ScriptSyntax.Parser TokenList

variable {T : TokenList} {i j k m least levels : Nat} {w : List TokenKind}

theorem SeparatorAt.gets (h : SeparatorAt T i j) : Gets T separator i (· = j) := by
  intro limit s a
  rw [Ends, h.run]

theorem TokenList.Reads.length (h : T.Reads i w j) : j = i + w.length := by
  induction w generalizing i with
  | nil => exact h.symm
  | cons k w ih =>
    rw [ih h.2, List.length_cons]
    omega

/-- The kinds of token that may stand behind an expression. -/
def TokenKind.endsExpression : TokenKind → Bool
  | .symbol .rightParen | .symbol .comma | .symbol .semicolon => true
  | _ => false

/-- The kinds of token that may stand behind an operand. -/
def TokenKind.endsOperand (k : TokenKind) : Bool := k.isBinary || k.endsExpression

theorem TokenKind.not_isBinary_of_ends {k : TokenKind} (h : k.endsExpression) : ¬ k.isBinary := by
  unfold endsExpression at h
  split at h <;> first | decide | exact nomatch h

theorem TokenKind.ne_of_endsOperand {k : TokenKind} (h : k.endsOperand) :
    k ≠ Symbol.leftParen ∧ ¬ k.isAssignment := by
  constructor
  · rintro rfl
    exact nomatch h
  · intro ha
    unfold isAssignment at ha
    split at ha
    all_goals first | exact absurd h (by decide) | exact nomatch ha

namespace Language

/-- Operators and the operands behind them, as they follow one another. -/
inductive Row : List TokenKind → Prop
  | nil : Row []
  | cons {k u w} : k.isBinary → Operand u → Row w → Row (k :: (u ++ w))

theorem Row.append {v w : List TokenKind} (h : Row v) (h' : Row w) : Row (v ++ w) := by
  induction h with
  | nil => exact h'
  | cons hk hu _ ih =>
    rw [List.cons_append, List.append_assoc]
    exact .cons hk hu ih

/-- How operators bind does not matter for which tokens follow one another. -/
theorem Operation.row {least : Nat} {w : List TokenKind} (h : Operation least w) :
    ∃ u v, w = u ++ v ∧ Operand u ∧ Row v := by
  match h with
  | .operand h => exact ⟨w, [], (List.append_nil w).symm, h, .nil⟩
  | .binary h hk _ h' =>
    obtain ⟨u, v, rfl, hu, hv⟩ := h.row
    obtain ⟨u', v', rfl, hu', hv'⟩ := h'.row
    exact ⟨u, _, List.append_assoc .., hu, hv.append (.cons hk hu' hv')⟩

theorem Operand.starts {u : List TokenKind} (h : Operand u) (hr : T.Reads i (u ++ w) j) :
    (T.get i).kind.startsOperand := by
  cases h with
  | @unary k w hk _ =>
    rw [hr.1]
    unfold TokenKind.isUnary at hk
    split at hk <;> first | rfl | exact nomatch hk
  | _ =>
    rw [hr.1]
    rfl

theorem Operand.lt {u : List TokenKind} (h : Operand u) (hr : T.Reads i u j) : i < j := by
  rw [hr.length]
  cases h <;> simp

theorem Operation.starts {least : Nat} (h : Operation least w) (hr : T.Reads i w j) :
    (T.get i).kind.startsOperand := by
  obtain ⟨u, v, rfl, hu, -⟩ := h.row
  exact hu.starts hr

theorem Operation.lt {least : Nat} (h : Operation least w) (hr : T.Reads i w j) : i < j := by
  obtain ⟨u, v, rfl, hu, -⟩ := h.row
  obtain ⟨m, hru, hrv⟩ := reads_append.1 hr
  have := hu.lt hru
  have := hrv.length
  omega

/-- A row goes on with an operator or is at its end. -/
theorem Row.next (h : Row w) (hr : T.Reads i w j) (he : (T.get j).kind.endsExpression) :
    (T.get i).kind.endsOperand := by
  cases h with
  | nil =>
    obtain rfl := hr
    rw [TokenKind.endsOperand, he, Bool.or_true]
  | cons hk _ _ =>
    rw [TokenKind.endsOperand, hr.1, hk, Bool.true_or]

end Language

open ScriptSyntax.Language

section Expressions

/-- Slot `k` is in front of a row that ends in slot `j`, and begins with no operator of at least the
power `least`. -/
def RowTo (T : TokenList) (least j k : Nat) : Prop :=
  (∃ w, Row w ∧ T.Reads k w j) ∧
    ¬ ((T.get k).kind.isBinary ∧ least ≤ (T.get k).kind.precedence)

/-- Every operator has at least the power 1, so none is left. -/
theorem RowTo.finished (h : RowTo T 1 j k) : k = j := by
  obtain ⟨⟨w, hw, hr⟩, hk⟩ := h
  cases hw with
  | nil => exact hr
  | @cons o u w ho _ _ =>
    refine absurd ⟨hr.1 ▸ ho, ?_⟩ hk
    rw [hr.1]
    unfold TokenKind.isBinary at ho
    simp only [Bool.and_eq_true, decide_eq_true_eq] at ho
    exact ho.1

theorem gets_combined {operator : Token} {left right : Node} :
    Gets T (combined operator left right) i (· = i) := by
  unfold combined Node.ofBinary
  cases BinaryOperator.ofKind? operator.kind with
  | some _ => exact gets_pure rfl
  | none => exact gets_fail rfl

theorem gets_climb {right : Nat → Parser Node} (bound : Nat) (left : Node)
    (hright : ∀ {least m u w}, i < m → Operand u → Row w → T.Reads m (u ++ w) j →
      Gets T (right least) m fun k => m < k ∧ RowTo T least j k)
    (hw : Row w) (hr : T.Reads i w j) (he : (T.get j).kind.endsExpression)
    (hb : T.size ≤ bound + i) :
    Gets T (climb right least bound left) i fun k => i ≤ k ∧ RowTo T least j k := by
  induction bound generalizing i w left with
  | zero =>
    -- No token is left, so no operator is.
    apply gets_pure
    refine ⟨Nat.le_refl i, ⟨w, hw, hr⟩, fun hk => ?_⟩
    rcases kind_of_size_le (by omega : T.size ≤ i) with h | h <;>
      rw [h] at hk <;> exact absurd hk.1 (by decide)
  | succ bound ih =>
    rw [climb]
    apply Gets.peek
    dsimp only [Nat.add_zero]
    split
    · next hk =>
      cases hw with
      | nil =>
        obtain rfl := hr
        exact absurd hk.1 (TokenKind.not_isBinary_of_ends he)
      | @cons o u w _ hu hw =>
        apply Gets.advance
        apply (hright (Nat.lt_succ_self i) hu hw hr.2).bind
        rintro other k ⟨hlt, ⟨w', hw', hr'⟩, -⟩
        apply Gets.seq gets_combined
        intro left
        apply (ih left (fun h => hright (by omega)) hw' hr' (by omega)).imp
        rintro m ⟨hle, hm⟩
        exact ⟨by omega, hm⟩
    · next hk =>
      apply gets_pure
      exact ⟨Nat.le_refl i, ⟨w, hw, hr⟩, hk⟩

theorem gets_chain {p : Parser Node} {right : Nat → Parser Node} {u : List TokenKind}
    (hp : ∀ {m}, T.Reads i u m → (T.get m).kind.endsOperand → Gets T p i (· = m))
    (hright : ∀ {least m u w}, i < m → Operand u → Row w → T.Reads m (u ++ w) j →
      Gets T (right least) m fun k => m < k ∧ RowTo T least j k)
    (hu : Operand u) (hw : Row w) (hr : T.Reads i (u ++ w) j)
    (he : (T.get j).kind.endsExpression) :
    Gets T (chain p right least) i fun k => i < k ∧ RowTo T least j k := by
  obtain ⟨m, hru, hrw⟩ := reads_append.1 hr
  have hlt : i < m := hu.lt hru
  apply (hp hru (hw.next hrw he)).seq
  intro left
  apply Gets.remaining
  apply (gets_climb (T.size - m) left (fun h => hright (by omega)) hw hrw he (by omega)).imp
  rintro k ⟨hle, hk⟩
  exact ⟨by omega, hk⟩

/-- From slot `m` on, `p` reads each expression to its end. -/
def GetsExpressions (T : TokenList) (m : Nat) (p : Parser Node) : Prop :=
  ∀ {i j w}, m ≤ i → Operation 1 w → T.Reads i w j → (T.get j).kind.endsExpression →
    Gets T p i (· = j)

/-- The members of a list and the parenthesis behind them. By induction on the members. -/
theorem Language.Arguments.loops {p : Parser Node} (hp : GetsExpressions T m p) {i : Nat}
    {w : List TokenKind} (h : Arguments w) (hi : m ≤ i) (hr : T.Reads i w j)
    (hj : (T.get j).kind = Symbol.rightParen) :
    Loops T parenClose (do
      let argument ← p
      separator
      return [argument]) i (· = j + 1) := by
  have hend : (T.get j).kind.endsExpression := by rw [hj]; rfl
  match h with
  | .none =>
    obtain rfl := hr
    exact .parenClose hj
  | .last hv =>
    have hst := hv.starts hr
    have hlt := hv.lt hr
    refine .more (parenClose_none (TokenKind.startsOperand_ne hst).1) ?_ hlt
      (lt_size_of_startsOperand hst) (.parenClose hj)
    apply (hp hi hv hr hend).seq
    intro argument
    exact (SeparatorAt.last hj).gets.seq fun _ => gets_pure rfl
  | .more hv hw =>
    obtain ⟨n, hrv, hc, hrw⟩ := reads_append.1 hr
    have hst := hv.starts hrv
    have hlt := hv.lt hrv
    refine .more (parenClose_none (TokenKind.startsOperand_ne hst).1) ?_ (by omega)
      (lt_size_of_startsOperand hst) (hw.loops hp (by omega) hrw hj)
    apply (hp hi hv hrv (by rw [hc]; rfl)).seq
    intro argument
    exact (SeparatorAt.comma hc).gets.seq fun _ => gets_pure rfl

theorem Language.Arguments.gets {p : Parser Node} (hp : GetsExpressions T m p) (h : Arguments w)
    (hi : m ≤ i) (hr : T.Reads i w j) (hj : (T.get j).kind = Symbol.rightParen) :
    Gets T (arguments p) i (· = j + 1) := (h.loops hp hi hr hj).gets

theorem gets_intLiteral (h : (T.get i).kind = .intLiteral) : Gets T intLiteral i (· = i + 1) := by
  refine (gets_expect h).seq fun token => ?_
  cases intLiteral? token.text with
  | some _ => exact gets_pure rfl
  | none => exact gets_fail rfl

theorem gets_doubleLiteral (h : (T.get i).kind = .doubleLiteral) :
    Gets T doubleLiteral i (· = i + 1) := by
  refine (gets_expect h).seq fun token => ?_
  cases doubleLiteral? token.text with
  | some _ => exact gets_pure rfl
  | none => exact gets_fail rfl

theorem gets_load (h : (T.get i).kind = .identifier) : Gets T load i (· = i + 1) :=
  (gets_expect h).seq fun _ => Gets.seq gets_resolve fun _ => gets_pure rfl

theorem gets_applied {p : Parser Node} (h : Gets T p (i + 1) (· = j)) :
    Gets T (applied p) i (· = j) := by
  apply Gets.advance
  apply h.seq
  intro inner
  unfold Node.ofUnary
  cases UnaryOperator.ofKind? (T.get i).kind with
  | some _ => exact gets_pure rfl
  | none => exact gets_fail rfl

/-- What `operand` does by the first token. -/
theorem Language.Operand.gets {signed p : Parser Node} {u : List TokenKind} (h : Operand u)
    (hsigned : ∀ {v}, Operand v → T.Reads (i + 1) v j → Gets T signed i (· = j))
    (hp : GetsExpressions T (i + 1) p) (hr : T.Reads i u j) (he : (T.get j).kind.endsOperand) :
    Gets T (operand signed p) i (· = j) := by
  apply Gets.peek
  rw [Nat.add_zero]
  cases h with
  | int =>
    obtain ⟨hk, rfl⟩ := hr
    rw [hk]
    exact gets_intLiteral hk
  | double =>
    obtain ⟨hk, rfl⟩ := hr
    rw [hk]
    exact gets_doubleLiteral hk
  | string =>
    obtain ⟨hk, rfl⟩ := hr
    rw [hk]
    exact Gets.advance (gets_pure rfl)
  | name =>
    obtain ⟨hk, rfl⟩ := hr
    rw [hk]
    apply Gets.peek
    rw [if_neg (TokenKind.ne_of_endsOperand he).1]
    exact gets_load hk
  | call hw =>
    obtain ⟨hk, hl, hr⟩ := hr
    obtain ⟨n, hrw, hj, rfl⟩ := reads_append.1 hr
    rw [hk]
    apply Gets.peek
    rw [if_pos hl]
    refine (gets_expect hk).seq fun name => (gets_expect hl).seq fun _ => Gets.seq gets_get fun t =>
      Gets.seq gets_scope fun s => ?_
    exact (hw.gets hp (by omega) hrw hj).seq fun _ => gets_pure rfl
  | @unary k w hk hw =>
    rw [hr.1]
    unfold TokenKind.isUnary at hk
    split at hk
    · exact hsigned hw hr.2
    · exact hsigned hw hr.2
    · exact nomatch hk
  | parenthesised hw =>
    obtain ⟨hk, hr⟩ := hr
    obtain ⟨n, hrw, hj, rfl⟩ := reads_append.1 hr
    rw [hk]
    apply Gets.advance
    apply (hp (Nat.le_refl _) hw hrw (by rw [hj]; rfl)).seq
    intro inner
    exact (gets_expect hj).seq fun _ => gets_pure rfl

/-- By induction on the levels of nesting that are left: there are at least as many as tokens. -/
theorem gets_levels (levels : Nat) :
    (∀ {i j u}, Operand u → T.Reads i u j → (T.get j).kind.endsOperand → T.size ≤ levels + i →
      Gets T (unary levels) i (· = j)) ∧
    (∀ {least i j u w}, Operand u → Row w → T.Reads i (u ++ w) j →
      (T.get j).kind.endsExpression → T.size < levels + i →
      Gets T (expression levels least) i fun k => i < k ∧ RowTo T least j k) := by
  induction levels with
  | zero =>
    constructor
    · intro i j u hu hr _ hl
      have := lt_size_of_startsOperand (hu.starts (w := []) (by rwa [List.append_nil]))
      omega
    · intro least i j u w hu _ hr _ hl
      have := lt_size_of_startsOperand (hu.starts hr)
      omega
  | succ levels ih =>
    have hexpression : ∀ {least i j u w}, Operand u → Row w → T.Reads i (u ++ w) j →
        (T.get j).kind.endsExpression → T.size < levels + 1 + i →
        Gets T (expression (levels + 1) least) i fun k => i < k ∧ RowTo T least j k := by
      intro least i j u w hu hw hr he hl
      rw [expression]
      apply gets_chain ?_ ?_ hu hw hr he
      · intro m hr he
        exact ih.1 hu hr he (by omega)
      · intro least m u w hlt hu hw hr
        exact ih.2 hu hw hr he (by omega)
    refine ⟨?_, hexpression⟩
    intro i j u hu hr he hl
    rw [unary_succ]
    apply hu.gets ?_ ?_ hr he
    · intro v hv hr
      exact gets_applied (ih.1 hv hr he (by omega))
    · intro i' j w hi hw hr he
      obtain ⟨u, v, rfl, hu, hv⟩ := hw.row
      exact (hexpression hu hv hr he (by omega)).imp fun k hk => hk.2.finished

theorem getsExpressions_expression (hl : T.size < levels + m) :
    GetsExpressions T m (expression levels 1) := by
  intro i j w hi hw hr he
  obtain ⟨u, v, rfl, hu, hv⟩ := hw.row
  exact ((gets_levels levels).2 hu hv hr he (by omega)).imp fun k hk => hk.2.finished

end Expressions

end ScriptSyntax
