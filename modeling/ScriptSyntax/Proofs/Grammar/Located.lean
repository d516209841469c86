import ScriptSyntax.Proofs.Grammar.Ending
import ScriptSyntax.Proofs.Grammar.Extent

/-!
The cursor never passes the end of the input while all goes well, and what goes wrong is noticed at
a token or at the end, with the cursor at most in the slot behind that.
-/

namespace ScriptSyntax

/-- The place of a token, or of the end of the input. -/
def TokenList.IsPlace (T : TokenList) (l : Location) : Prop :=
  ∃ k, k ≤ T.size ∧ l = (T.get k).location

theorem TokenList.isPlace_get {T : TokenList} {i : Nat} (h : i ≤ T.size) :
    T.IsPlace (T.get i).location := ⟨i, h, rfl⟩

namespace Parser

variable {α β : Type} {T : TokenList} {i : Nat}

/-- At slot `i`, `p` yields what `V` holds of and stays in the list, or fails at one of its
places with at most the end taken. -/
def YieldsAt (T : TokenList) (V : α → Prop) (i : Nat) (p : Parser α) : Prop :=
  ∀ limit s a, Ends p ⟨T, limit, s⟩ ⟨i, a⟩ (fun r t => V r ∧ t.position ≤ T.size)
    fun e t => T.IsPlace e.location ∧ t.position ≤ T.size + 1

/-- Wherever it is run. -/
def Yields (T : TokenList) (V : α → Prop) (p : Parser α) : Prop :=
  ∀ i, i ≤ T.size → YieldsAt T V i p

/-- Nothing is said of what is yielded. -/
abbrev StaysAt (T : TokenList) (i : Nat) (p : Parser α) : Prop := YieldsAt T (fun _ => True) i p

abbrev Stays (T : TokenList) (p : Parser α) : Prop := Yields T (fun _ => True) p

section Steps

variable {V : α → Prop} {W : β → Prop} {p : Parser α}

theorem YieldsAt.bind {f : α → Parser β} (h : YieldsAt T V i p) (hf : ∀ a, V a → Yields T W (f a)) :
    YieldsAt T W i (p >>= f) := by
  intro limit s a
  rw [ends_bind]
  apply (h limit s a).imp
  · intro r t ht
    exact hf r ht.1 t.position ht.2 limit s t.arena
  · intro e t he
    exact he

theorem Yields.bind {f : α → Parser β} (h : Yields T V p) (hf : ∀ a, V a → Yields T W (f a)) :
    Yields T W (p >>= f) := fun i hi => (h i hi).bind hf

theorem Yields.inNewScope (h : Yields T V p) : Yields T V (inNewScope p) :=
  fun i hi limit _ _ => ends_inNewScope.2 (h i hi limit _ _)

theorem Yields.stays (h : Yields T V p) : Stays T p :=
  fun i hi limit s a => (h i hi limit s a).imp (fun _ _ ht => ⟨trivial, ht.2⟩) fun _ _ he => he

theorem yields_pure {a : α} (h : V a) : Yields T V (pure a) := fun _ hi _ _ _ => ⟨h, hi⟩

theorem yields_fail {cause : Cause} {l : Location} (h : T.IsPlace l) :
    Yields T V (fail cause l) := fun _ hi _ _ _ => ⟨h, Nat.le_succ_of_le hi⟩

theorem yields_failHere {cause : Cause} : Yields T V (failHere cause) :=
  fun _ hi _ _ _ => ⟨TokenList.isPlace_get hi, Nat.le_succ_of_le hi⟩

theorem yields_unexpected : Yields T V unexpected :=
  fun _ hi _ _ _ => ⟨TokenList.isPlace_get hi, Nat.le_succ_of_le hi⟩

theorem yields_tooDeep : Yields T V tooDeep :=
  fun _ hi _ _ _ => ⟨TokenList.isPlace_get hi, Nat.le_succ_of_le hi⟩

theorem stays_scope : Stays T scope := fun _ hi _ _ _ => ⟨trivial, hi⟩

theorem stays_get : Stays T (get : Parser Progress) :=
  fun _ hi _ _ _ => ⟨trivial, hi⟩

theorem stays_modify {f : Arena → Arena} :
    Stays T (modify fun s => { s with arena := f s.arena }) :=
  fun _ hi _ _ _ => ⟨trivial, hi⟩

theorem stays_remaining : Stays T remaining := fun _ hi _ _ _ => ⟨trivial, hi⟩

theorem yields_here : Yields T T.IsPlace here :=
  fun _ hi _ _ _ => ⟨TokenList.isPlace_get hi, hi⟩

/-- The kind that is looked at is that of the slot. -/
theorem yieldsAt_peek {n : Nat} {f : TokenKind → Parser β}
    (h : YieldsAt T W i (f (T.get (i + n)).kind)) : YieldsAt T W i (peek n >>= f) :=
  fun limit s a => ends_bind.2 (h limit s a)

theorem yieldsAt_advance (h : i < T.size) :
    YieldsAt T (fun t => T.IsPlace t.location) i advance :=
  fun _ _ _ => ⟨TokenList.isPlace_get (Nat.le_of_lt h), h⟩

theorem yields_expect {kind : TokenKind} {what : String} (he : kind ≠ .endOfInput)
    (hu : kind ≠ .undefined) :
    Yields T (fun t => T.IsPlace t.location) (expect kind what) := by
  intro i hi limit s a
  rw [ends_expect]
  constructor
  · intro hk
    exact ⟨TokenList.isPlace_get hi, TokenList.lt_size_of_kind hk ⟨he, hu⟩⟩
  · intro _
    exact ⟨TokenList.isPlace_get hi, Nat.le_succ_of_le hi⟩

theorem yields_symbol (x : Symbol) : Yields T (fun t => T.IsPlace t.location) (symbol x) :=
  yields_expect (by simp) (by simp)

theorem yields_keyword (k : Keyword) : Yields T (fun t => T.IsPlace t.location) (keyword k) :=
  yields_expect (by simp) (by simp)

theorem yields_identifier : Yields T (fun t => T.IsPlace t.location) identifier :=
  yields_expect (by simp) (by simp)

theorem stays_accept {kind : TokenKind} (he : kind ≠ .endOfInput) (hu : kind ≠ .undefined) :
    Stays T (accept kind) := by
  intro i hi limit s a
  rw [ends_accept]
  constructor
  · intro hk
    exact ⟨trivial, TokenList.lt_size_of_kind hk ⟨he, hu⟩⟩
  · intro _
    exact ⟨trivial, hi⟩

/-- The end of the input names no type, so that nothing behind it is read. -/
theorem yields_typed {f : Token → ValueType → Parser β} {voidAllowed : Bool}
    (hf : ∀ t type, T.IsPlace t.location → Yields T W (f t type)) :
    Yields T W (advance >>= fun t => typeOf t voidAllowed >>= f t) := by
  intro i hi limit s a
  have hplace := TokenList.isPlace_get hi
  rw [ends_bind, ends_advance]
  unfold typeOf
  cases htype : ValueType.ofKind? (T.get i).kind with
  | none => exact ⟨hplace, Nat.succ_le_succ hi⟩
  | some type =>
    have hlt := TokenList.lt_size_of_type htype
    dsimp only
    split
    · exact ⟨hplace, Nat.succ_le_succ hi⟩
    · exact hf _ type hplace (i + 1) hlt limit s a

theorem stays_resolve {t : Token} (h : T.IsPlace t.location) :
    Stays T (resolve t) := by
  intro i hi limit s a
  rw [ends_resolve]
  exact ⟨fun _ _ => ⟨trivial, hi⟩, fun _ => ⟨h, Nat.le_succ_of_le hi⟩⟩

theorem stays_define {type : ValueType} {t : Token} (h : T.IsPlace t.location) :
    Stays T (define type t) := by
  apply Yields.bind stays_scope
  intro owner _
  apply Yields.bind stays_get
  intro r _
  cases r.arena.defineVariable owner ⟨type, t.text, owner, t.location⟩ false with
  | ok d =>
    have hset : Stays T (modify fun s => { s with arena := d.2 }) :=
      stays_modify (f := fun _ => d.2)
    exact hset.bind fun _ _ => yields_pure trivial
  | error _ => exact yields_fail h

end Steps

section Lists

variable {V : α → Prop} {W : β → Prop} {close : Parser (Option β)} {item : Parser (List α)}

theorem yields_many (hclose : Stays T close)
    (hitem : Yields T (fun xs => ∀ x ∈ xs, V x) item) :
    Yields T (fun r => ∀ x ∈ r.1, V x) (many close item) := by
  have hcloseOr : ∀ {more : Parser (List α × β)}, Yields T (fun r => ∀ x ∈ r.1, V x) more →
      Yields T (fun r => ∀ x ∈ r.1, V x) (closeOr close item more) := by
    intro more hmore
    apply hclose.bind
    rintro (_ | finish) -
    · apply hitem.bind
      intro items hitems
      apply hmore.bind
      rintro ⟨rest, finish⟩ hrest
      apply yields_pure
      intro x hx
      exact (List.mem_append.1 hx).elim (hitems x) (hrest x)
    · exact yields_pure nofun
  apply Yields.bind stays_remaining
  intro bound _
  induction bound with
  | zero => exact hcloseOr yields_failHere
  | succ bound ih => exact hcloseOr ih

theorem stays_separator : Stays T separator := by
  apply (stays_accept (by simp) (by simp)).bind
  rintro (_ | _) -
  · intro i hi
    apply yieldsAt_peek
    split
    · exact yields_pure trivial i hi
    · exact yields_failHere i hi
  · exact yields_pure trivial

theorem stays_parenClose : Stays T parenClose := by
  apply Yields.bind yields_here
  intro l _
  apply (stays_accept (by simp) (by simp)).bind
  rintro (_ | _) -
  · exact yields_pure trivial
  · exact yields_pure trivial

end Lists

section Expressions

variable {p : Parser Node}

theorem stays_intLiteral : Stays T intLiteral := by
  apply Yields.bind (yields_expect (by simp) (by simp))
  intro t ht
  cases intLiteral? t.text with
  | some _ => exact yields_pure trivial
  | none => exact yields_fail ht

theorem stays_doubleLiteral : Stays T doubleLiteral := by
  apply Yields.bind (yields_expect (by simp) (by simp))
  intro t ht
  cases doubleLiteral? t.text with
  | some _ => exact yields_pure trivial
  | none => exact yields_fail ht

theorem stays_load : Stays T load := by
  apply Yields.bind yields_identifier
  intro name hname
  exact (stays_resolve hname).bind fun _ _ => yields_pure trivial

theorem stays_arguments (h : Stays T p) : Stays T (arguments p) := by
  apply Yields.stays
  apply yields_many (V := fun _ => True) stays_parenClose
  apply h.bind
  intro n _
  exact Yields.bind stays_separator fun _ _ => yields_pure fun _ _ => trivial

theorem stays_call (h : Stays T p) : Stays T (call p) := by
  apply Yields.bind yields_identifier
  intro name _
  apply (yields_symbol _).bind
  intro _ _
  apply Yields.bind stays_get
  intro r _
  apply Yields.bind stays_scope
  intro s _
  exact (stays_arguments h).bind fun _ _ => yields_pure trivial

theorem staysAt_applied (h : Stays T p) (hi : i < T.size) :
    StaysAt T i (applied p) := by
  apply (yieldsAt_advance hi).bind
  intro operator hoperator
  apply h.bind
  intro inner _
  unfold Node.ofUnary
  cases UnaryOperator.ofKind? operator.kind with
  | some _ => exact yields_pure trivial
  | none => exact yields_fail hoperator

theorem staysAt_parenthesised (h : Stays T p) (hi : i < T.size) :
    StaysAt T i (parenthesised p) := by
  apply (yieldsAt_advance hi).bind
  intro _ _
  apply h.bind
  intro inner _
  exact (yields_symbol _).bind fun _ _ => yields_pure trivial

theorem stays_operand {signed : Parser Node}
    (hsigned : ∀ i, i < T.size → StaysAt T i signed)
    (h : Stays T p) : Stays T (operand signed p) := by
  intro i hi
  apply yieldsAt_peek
  rw [Nat.add_zero]
  -- In front of what takes a token unseen, the kind shows that there is one.
  split
  · next hk => exact hsigned i (TokenList.lt_size_of_kind hk (by decide))
  · next hk => exact hsigned i (TokenList.lt_size_of_kind hk (by decide))
  · next hk => exact staysAt_parenthesised h (TokenList.lt_size_of_kind hk (by decide))
  · apply yieldsAt_peek
    split
    · exact stays_call h i hi
    · exact stays_load i hi
  · exact stays_intLiteral i hi
  · exact stays_doubleLiteral i hi
  · next hk =>
    exact (yieldsAt_advance (TokenList.lt_size_of_kind hk (by decide))).bind fun _ _ =>
      yields_pure trivial
  · exact yields_failHere i hi
  · exact yields_unexpected i hi

theorem stays_combined {operator : Token} {left right : Node} (h : T.IsPlace operator.location) :
    Stays T (combined operator left right) := by
  unfold combined Node.ofBinary
  cases BinaryOperator.ofKind? operator.kind with
  | some _ => exact yields_pure trivial
  | none => exact yields_fail h

theorem stays_climb {right : Nat → Parser Node} (h : ∀ least, Stays T (right least))
    (least bound : Nat) (left : Node) : Stays T (climb right least bound left) := by
  induction bound generalizing left with
  | zero => exact yields_pure trivial
  | succ bound ih =>
    intro i hi
    rw [climb]
    apply yieldsAt_peek
    rw [Nat.add_zero]
    split
    · next hk =>
      have hlt : i < T.size := by
        refine TokenList.lt_size_of_kind rfl ⟨?_, ?_⟩ <;>
          · intro hend
            rw [hend] at hk
            exact absurd hk.1 (by decide)
      apply (yieldsAt_advance hlt).bind
      intro operator hoperator
      apply (h _).bind
      intro other _
      exact (stays_combined hoperator).bind fun left _ => ih left
    · exact yields_pure trivial i hi

theorem stays_chain {right : Nat → Parser Node} (h : Stays T p)
    (hright : ∀ least, Stays T (right least)) (least : Nat) :
    Stays T (chain p right least) := by
  apply h.bind
  intro left _
  apply Yields.bind stays_remaining
  intro bound _
  exact stays_climb hright least bound left

/-- By induction on the levels of nesting that are left. -/
theorem stays_levels (levels : Nat) :
    (∀ least, Stays T (expression levels least)) ∧
      Stays T (unary levels) := by
  induction levels with
  | zero =>
    refine ⟨fun least => ?_, ?_⟩
    · rw [expression]
      exact yields_tooDeep
    · rw [unary]
      exact stays_operand (fun i hi => yields_tooDeep i (Nat.le_of_lt hi)) yields_tooDeep
  | succ levels ih =>
    have hexpression : ∀ least, Stays T (expression (levels + 1) least) := by
      intro least
      rw [expression]
      exact stays_chain ih.2 ih.1 least
    refine ⟨hexpression, ?_⟩
    rw [unary_succ]
    exact stays_operand (fun i hi => staysAt_applied ih.2 hi) (hexpression 1)

end Expressions

section Statements

variable {p : Parser Node} {q : Parser Block}

theorem stays_variableDeclaration (h : Stays T p) : Stays T (variableDeclaration p) := by
  apply yields_typed
  intro t type _
  apply Yields.bind yields_identifier
  intro name hname
  apply (yields_symbol _).bind
  intro _ _
  apply h.bind
  intro value _
  exact (stays_define hname).bind fun _ _ => yields_pure trivial

/-- The token behind the name is not looked at, so that it has to be there. -/
theorem staysAt_assignment (h : Stays T p) (hi : i + 1 < T.size) : StaysAt T i (assignment p) := by
  intro limit s a
  have hplace := TokenList.isPlace_get (Nat.le_of_succ_le (Nat.le_of_lt hi))
  rw [assignment, ends_bind, identifier, ends_expect]
  refine ⟨fun _ => ?_, fun _ => ⟨hplace, by dsimp only; omega⟩⟩
  rw [ends_bind, ends_resolve]
  refine ⟨fun x _ => ?_, fun _ => ⟨hplace, by dsimp only; omega⟩⟩
  rw [ends_bind, ends_advance]
  apply Yields.bind h
  · intro value _
    unfold Node.ofAssign
    cases AssignOperator.ofKind? (T.get (i + 1)).kind with
    | some _ => exact yields_pure trivial
    | none => exact yields_fail hplace
  · exact hi

theorem stays_printed (h : Stays T p) : Stays T (printed p) := by
  apply (yields_keyword _).bind
  intro start _
  apply (yields_symbol _).bind
  intro _ _
  exact (stays_arguments h).bind fun _ _ => yields_pure trivial

theorem stays_returned (h : Stays T p) : Stays T (returned p) := by
  apply (yields_keyword _).bind
  intro start _ i hi
  apply yieldsAt_peek
  split
  · exact yields_pure trivial i hi
  · exact (h.bind fun _ _ => yields_pure trivial) i hi

theorem stays_condition (h : Stays T p) : Stays T (condition p) := by
  apply (yields_symbol _).bind
  intro _ _
  apply h.bind
  intro node _
  exact (yields_symbol _).bind fun _ _ => yields_pure trivial

theorem stays_branch (hq : Stays T q) (h : Stays T p) : Stays T (branch q p) := by
  apply (yields_keyword _).bind
  intro start _
  apply (stays_condition h).bind
  intro test _
  apply hq.bind
  intro thenBody _
  apply (stays_accept (by simp) (by simp)).bind
  rintro (_ | _) -
  · exact yields_pure trivial
  · exact hq.bind fun _ _ => yields_pure trivial

theorem stays_whileLoop (hq : Stays T q) (h : Stays T p) : Stays T (whileLoop q p) := by
  apply (yields_keyword _).bind
  intro start _
  apply (stays_condition h).bind
  intro test _
  exact hq.bind fun _ _ => yields_pure trivial

theorem stays_forLoop (hq : Stays T q) (h : Stays T p) : Stays T (forLoop q p) := by
  apply (yields_keyword _).bind
  intro start _
  apply (yields_symbol _).bind
  intro _ _
  apply Yields.bind yields_identifier
  intro name hname
  apply (stays_resolve hname).bind
  intro target _
  apply (yields_keyword _).bind
  intro _ _
  apply h.bind
  intro range _
  apply (yields_symbol _).bind
  intro _ _
  exact hq.bind fun _ _ => yields_pure trivial

end Statements

section Declarations

variable {q : Parser Block}

theorem yields_parameters :
    Yields T (fun r => ∀ x ∈ r.1, T.IsPlace x.2.location)
      (many parenClose do return [← parameter]) := by
  have hparameter : Yields T (fun x => T.IsPlace x.2.location) parameter := by
    apply yields_typed
    intro t type _
    apply Yields.bind yields_identifier
    intro name hname
    exact Yields.bind stays_separator fun _ _ => yields_pure hname
  apply yields_many stays_parenClose
  apply hparameter.bind
  intro x hx
  apply yields_pure
  intro y hy
  exact List.mem_singleton.1 hy ▸ hx

theorem stays_nativeBody (signature : Signature) : Stays T (nativeBody signature) := by
  apply (yields_keyword _).bind
  intro start _
  apply Yields.bind (yields_expect (by simp) (by simp))
  intro target _
  apply (yields_symbol _).bind
  intro finish _
  apply Yields.inNewScope
  exact Yields.bind stays_scope fun _ _ => yields_pure trivial

theorem stays_defineFunction {owner : ScopeId} {signature : Signature} {name start : Token}
    (h : T.IsPlace name.location) : Stays T (defineFunction owner signature name start) := by
  apply Yields.bind stays_scope
  intro s _
  apply Yields.bind stays_get
  intro r _
  cases r.arena.defineFunction owner ⟨signature, owner, s, ⟨s, [], .single start.location⟩,
      .single start.location⟩ false with
  | ok d =>
    have hset : Stays T (modify fun s => { s with arena := d.2 }) :=
      stays_modify (f := fun _ => d.2)
    exact hset.bind fun _ _ => yields_pure trivial
  | error _ => exact yields_fail h

theorem stays_defineAll {ps : List (ValueType × Token)}
    (h : ∀ x ∈ ps, T.IsPlace x.2.location) : Stays T (defineAll ps) := by
  induction ps with
  | nil => exact yields_pure trivial
  | cons p ps ih =>
    apply (stays_define (h p List.mem_cons_self)).bind
    intro _ _
    exact ih fun x hx => h x (List.mem_cons_of_mem _ hx)

theorem stays_functionDeclaration (hq : Stays T q) : Stays T (functionDeclaration q) := by
  apply (yields_keyword _).bind
  intro start _
  apply yields_typed
  intro t returns _
  apply Yields.bind yields_identifier
  intro name hname
  apply (yields_symbol _).bind
  intro _ _
  apply Yields.bind yields_parameters
  rintro ⟨parameters, finish⟩ hparameters
  apply Yields.bind stays_scope
  intro owner _
  apply Yields.inNewScope
  apply (stays_defineAll hparameters).bind
  intro _ _
  apply (stays_defineFunction hname).bind
  intro f _ i hi
  have hset : ∀ body : Block, Stays T (do
      modify fun s =>
        { s with arena := s.arena.setBody f body ⟨start.location, body.span.finish⟩ }
      return f) := by
    intro body
    exact (stays_modify (f := fun a => a.setBody f body _)).bind fun _ _ => yields_pure trivial
  apply yieldsAt_peek
  dsimp only
  split
  · exact ((stays_nativeBody _).bind fun body _ => hset body) i hi
  · exact (hq.bind fun body _ => hset body) i hi

end Declarations

section Blocks

variable {p : Parser Node} {q : Parser Block} {r : Parser (Option Node)}

theorem staysAt_terminated (h : StaysAt T i p) : StaysAt T i (terminated p) := by
  apply h.bind
  intro node _
  exact (yields_symbol _).bind fun _ _ => yields_pure trivial

theorem stays_statement (hq : Stays T q) (h : Stays T p) : Stays T (statement q p) := by
  intro i hi
  have hd : StaysAt T i (terminated (variableDeclaration p)) :=
    staysAt_terminated (stays_variableDeclaration h i hi)
  apply yieldsAt_peek
  split
  · exact ((stays_functionDeclaration hq).bind fun _ _ => yields_pure trivial) i hi
  · exact (hq.bind fun _ _ => yields_pure trivial) i hi
  · exact ((stays_branch hq h).bind fun _ _ => yields_pure trivial) i hi
  · exact ((stays_whileLoop hq h).bind fun _ _ => yields_pure trivial) i hi
  · exact ((stays_forLoop hq h).bind fun _ _ => yields_pure trivial) i hi
  · exact hd
  · exact hd
  · exact hd
  · exact hd
  · exact staysAt_terminated (stays_printed h i hi)
  · exact staysAt_terminated (stays_returned h i hi)
  · exact yields_unexpected i hi
  · apply yieldsAt_peek
    split
    · next ha =>
      -- An assignment is tried only if its operator has been seen.
      have hlt : i + 1 < T.size := by
        refine TokenList.lt_size_of_kind rfl ⟨?_, ?_⟩ <;>
          · intro hend
            rw [hend] at ha
            exact nomatch ha
      exact staysAt_terminated (staysAt_assignment h hlt)
    · exact staysAt_terminated (h i hi)
  · exact staysAt_terminated (h i hi)

theorem stays_statementItem (h : Stays T r) : Stays T (statementItem r) := by
  apply (stays_accept (by simp) (by simp)).bind
  rintro (_ | _) -
  · exact h.bind fun _ _ => yields_pure trivial
  · exact yields_pure trivial

theorem stays_items {close : Parser (Option Location)} (hclose : Stays T close)
    (h : Stays T r) : Stays T (many close (statementItem r)) := by
  apply Yields.stays
  apply yields_many (V := fun _ => True) hclose
  exact fun i hi limit s a => (stays_statementItem h i hi limit s a).imp
    (fun _ _ ht => ⟨fun _ _ => trivial, ht.2⟩) fun _ _ he => he

theorem stays_braceClose : Stays T braceClose := by
  intro i hi
  apply yieldsAt_peek
  rw [Nat.add_zero]
  split
  · next hk =>
    exact (yieldsAt_advance (TokenList.lt_size_of_kind hk (by decide))).bind fun _ _ =>
      yields_pure trivial
  · exact yields_failHere i hi
  · exact yields_pure trivial i hi

theorem stays_endClose : Stays T endClose := by
  intro i hi
  apply yieldsAt_peek
  split
  · exact (Yields.bind yields_here fun _ _ => yields_pure trivial) i hi
  · exact yields_pure trivial i hi

theorem stays_braced (h : Stays T r) : Stays T (braced r) := by
  apply (yields_symbol _).bind
  intro start _
  apply Yields.inNewScope
  apply (stays_items stays_braceClose h).bind
  intro _ _
  exact Yields.bind stays_scope fun _ _ => yields_pure trivial

theorem stays_block (levels : Nat) : Stays T (block levels) := by
  induction levels with
  | zero =>
    rw [block]
    exact yields_tooDeep
  | succ levels ih =>
    rw [block]
    exact stays_braced (stays_statement ih ((stays_levels levels).1 1))

theorem stays_topLevel (limit : Nat) : ∀ i, i ≤ T.size → ∀ l s a, Ends (topLevel limit) ⟨T, l, s⟩
    ⟨i, a⟩ (fun _ t => t.position ≤ T.size) fun e _ => T.IsPlace e.location := by
  have hstays : Stays T (topLevel limit) := by
    apply Yields.bind stays_scope
    intro root _
    apply Yields.bind yields_here
    intro start _
    apply (stays_items stays_endClose (stays_statement (stays_block limit)
      ((stays_levels limit).1 1))).bind
    rintro ⟨body, finish⟩ -
    apply Yields.bind stays_get
    intro s _
    exact (stays_modify (f := fun _ => _)).bind fun _ _ => yields_pure trivial
  exact fun i hi l s a => (hstays i hi l s a).imp (fun _ _ ht => ht.2) fun _ _ he => he.1

end Blocks

end Parser

end ScriptSyntax
