import ScriptSyntax.Proofs.Arrangement
import ScriptSyntax.Proofs.Grammar.Congruence

/-!
How far a parser looks. What it comes to depends on no slot further on than the one behind the
cursor where it ends, so that nothing behind a failure has a part in it.
-/

namespace ScriptSyntax

/-- The two lists have the same slots up to the slot `n`. -/
def TokenList.AgreeTo (T T' : TokenList) (n : Nat) : Prop := ∀ k ≤ n, T'.get k = T.get k

theorem TokenList.AgreeTo.mono {T T' : TokenList} {m n : Nat} (h : T.AgreeTo T' n) (hmn : m ≤ n) :
    T.AgreeTo T' m := fun k hk => h k (Nat.le_trans hk hmn)

namespace Parser

variable {α β : Type} {p : Parser α}

/-- However `p` ends, it does so no further back than it began, and alike on all lists that agree up
to the slot behind. -/
def Local (p : Parser α) : Prop :=
  ∀ (T T' : TokenList) (limit : Nat) (scope : ScopeId) (s : Progress), Ends p ⟨T, limit, scope⟩ s
    (fun a t => s.position ≤ t.position ∧
      (T.AgreeTo T' (t.position + 1) → p ⟨T', limit, scope⟩ s = .ok a t))
    fun e t => s.position ≤ t.position ∧
      (T.AgreeTo T' (t.position + 1) → p ⟨T', limit, scope⟩ s = .error e t)

/-- A parser that looks at no token and leaves the cursor where it is. -/
theorem Local.of_tokens (h : ∀ T T' limit scope s, p ⟨T', limit, scope⟩ s = p ⟨T, limit, scope⟩ s)
    (hposition : ∀ c s, Ends p c s (fun _ t => t.position = s.position)
      fun _ t => t.position = s.position) : Local p := by
  intro T T' limit scope s
  rcases (hposition ⟨T, limit, scope⟩ s).result with ⟨a, t, hrun, ht⟩ | ⟨e, t, hrun, ht⟩
  · unfold Ends
    rw [hrun]
    exact ⟨Nat.le_of_eq ht.symm, fun _ => (h T T' limit scope s).trans hrun⟩
  · unfold Ends
    rw [hrun]
    exact ⟨Nat.le_of_eq ht.symm, fun _ => (h T T' limit scope s).trans hrun⟩

theorem Local.bind {f : α → Parser β} (h : Local p) (hf : ∀ a, Local (f a)) :
    Local (p >>= f) := by
  intro T T' limit scope s
  rw [ends_bind]
  refine (h T T' limit scope s).imp ?_ ?_
  · rintro a t ⟨hst, hp⟩
    -- What `p` looked at is in front of where the second parser ends, for that goes no further back.
    refine (hf a T T' limit scope t).imp ?_ ?_
    · rintro b u ⟨htu, hb⟩
      refine ⟨Nat.le_trans hst htu, fun hT => ?_⟩
      rw [bind_run, hp (hT.mono (Nat.succ_le_succ htu))]
      exact hb hT
    · rintro e u ⟨htu, he⟩
      refine ⟨Nat.le_trans hst htu, fun hT => ?_⟩
      rw [bind_run, hp (hT.mono (Nat.succ_le_succ htu))]
      exact he hT
  · rintro e t ⟨hst, hp⟩
    refine ⟨hst, fun hT => ?_⟩
    rw [bind_run, hp hT]

theorem Local.inNewScope (h : Local p) : Local (inNewScope p) := fun T T' limit _ _ =>
  ends_inNewScope.2 (h T T' limit _ _)

/-- The two lists may set different bounds, and one that covers both makes no difference. -/
theorem Local.bounded {f : Nat → Parser α} (hf : Settles f) (h : ∀ bound, Local (f bound)) :
    Local (remaining >>= f) := by
  intro T T' limit scope s
  have hbound : ∀ U : TokenList, U.size ≤ max T.size T'.size →
      (remaining >>= f) ⟨U, limit, scope⟩ s = f (max T.size T'.size) ⟨U, limit, scope⟩ s :=
    fun U hU => (hf (Nat.le_trans hU (Nat.le_add_right _ _))).symm
  have hlocal := h (max T.size T'.size) T T' limit scope s
  unfold Ends at hlocal ⊢
  rwa [hbound T (Nat.le_max_left _ _), hbound T' (Nat.le_max_right _ _)]

theorem local_pure (a : α) : Local (pure a) := .of_tokens (fun _ _ _ _ _ => rfl) fun _ _ => rfl

theorem local_fail (cause : Cause) (l : Location) : Local (fail cause l : Parser α) :=
  .of_tokens (fun _ _ _ _ _ => rfl) fun _ _ => rfl

theorem local_get : Local get := .of_tokens (fun _ _ _ _ _ => rfl) fun _ _ => rfl

theorem local_scope : Local scope := .of_tokens (fun _ _ _ _ _ => rfl) fun _ _ => rfl

theorem local_modify (f : Arena → Arena) :
    Local (modify fun s => { s with arena := f s.arena } : Parser Unit) :=
  .of_tokens (fun _ _ _ _ _ => rfl) fun _ _ => rfl

theorem local_tokenAt {n : Nat} (hn : n ≤ 1) : Local (tokenAt n) := by
  intro T T' limit scope s
  refine ⟨Nat.le_refl _, fun hT => ?_⟩
  rw [tokenAt_run, hT _ (Nat.add_le_add_left hn _)]

theorem local_advance : Local advance := by
  intro T T' limit scope s
  refine ⟨Nat.le_succ _, fun hT => ?_⟩
  have hhere : T'.get s.position = T.get s.position := hT _ (Nat.le_add_right _ 2)
  rw [advance_run, hhere]
  rfl

theorem local_tooDeep : Local (tooDeep : Parser α) := by
  intro T T' limit scope s
  refine ⟨Nat.le_refl _, fun hT => ?_⟩
  have hhere : T'.get s.position = T.get s.position := hT _ (Nat.le_succ _)
  change EStateM.Result.error (⟨_, (T'.get s.position).location⟩ : Failure) s = _
  rw [hhere]
  rfl

theorem local_define (type : ValueType) (name : Token) : Local (define type name) := by
  apply local_scope.bind
  intro owner
  apply local_get.bind
  intro s
  split
  · exact (local_modify fun _ => _).bind fun _ => local_pure _
  · exact local_fail _ _

theorem local_defineAll (parameters : List (ValueType × Token)) : Local (defineAll parameters) := by
  induction parameters with
  | nil => exact local_pure _
  | cons p parameters ih => exact (local_define p.1 p.2).bind fun _ => ih

theorem local_defineFunction (owner : ScopeId) (signature : Signature) (name start : Token) :
    Local (defineFunction owner signature name start) := by
  apply local_scope.bind
  intro parameterScope
  apply local_get.bind
  intro s
  split
  · exact (local_modify fun _ => _).bind fun _ => local_pure _
  · exact local_fail _ _

theorem congruence_local : Congruence fun _ p _ => Local p where
  pure := local_pure
  bind h hf := h.bind hf
  fail l _ := local_fail _ l
  tooDeep := local_tooDeep
  get := local_get
  scope := local_scope
  bounded := Local.bounded
  tokenAt _ := local_tokenAt
  advance := local_advance
  define := local_define
  inNewScope := Local.inNewScope
  declared parameters signature name start h := by
    apply local_scope.bind
    intro owner
    apply Local.inNewScope
    apply (local_defineAll parameters).bind
    intro _
    apply (local_defineFunction owner signature name start).bind
    intro f
    apply h.bind
    intro block
    exact (local_modify fun a => a.setBody f block _).bind fun _ => local_pure _
  finished f := local_get.bind fun _ => (local_modify fun _ => _).bind fun _ => local_pure _

end Parser

open ScriptSyntax.Parser

theorem Session.run_of_agreeTo {α : Type} {p : Parser α} (hp : Local p) {s : Session}
    {T : TokenList} (h : s.tokens.AgreeTo T ((s.run p).2.position + 1)) :
    { s with tokens := T }.run p = ((s.run p).1, { (s.run p).2 with tokens := T }) := by
  obtain ⟨limit, tokens, position, arena, scope, depth⟩ := s
  simp only [run_lift] at h ⊢
  rcases (hp tokens T limit scope ⟨position, arena⟩).result with
    ⟨r, t, hrun, -, ht⟩ | ⟨e, t, hrun, -, ht⟩
  · rw [hrun] at h ⊢
    rw [ht h]
  · rw [hrun] at h ⊢
    rw [ht h]

/-- Where the cursor is left by the text with these tokens. -/
theorem Session.parse_position {source : String} {T : TokenList} (limit : Nat)
    (h : tokenize source = .ok T) :
    ((new limit).parse source).2.position =
      match Parser.topLevel limit ⟨T, limit, Arena.root⟩ ⟨0, .fresh⟩ with
      | .ok _ t => t.position
      | .error _ t => t.position := by
  unfold tokenize at h
  rw [parse_eq]
  split at h
  · next T' hscan =>
    cases h
    rw [hscan]
    dsimp only [new]
    cases Parser.topLevel limit ⟨T, limit, Arena.root⟩ ⟨0, .fresh⟩ <;> rfl
  · contradiction

theorem parse_of_agreeTo {limit : Nat} {source source' : String} {T T' : TokenList}
    (hT : tokenize source = .ok T) (hT' : tokenize source' = .ok T')
    (h : T.AgreeTo T' (((Session.new limit).parse source).2.position + 1)) :
    parse limit source' = parse limit source := by
  rw [Session.parse_position limit hT] at h
  rw [parse_of_tokenize limit hT, parse_of_tokenize limit hT']
  have hlocal : Local (topLevel limit) := congruence_local.topLevel (.inl rfl)
  rcases (hlocal T T' limit Arena.root ⟨0, .fresh⟩).result with
    ⟨f, t, hrun, -, ht⟩ | ⟨e, t, hrun, -, ht⟩
  · rw [hrun] at h ⊢
    rw [ht h]
  · rw [hrun] at h ⊢
    rw [ht h]

/-- Reading a construct comes to the same, in the result, the cursor and the arena, from all lists
of tokens that agree up to the slot behind the cursor where it ends, with any number of levels left.
So it is for a session, and for whole texts: what stands behind the failure of one changes nothing.
-/
theorem reading_looks_one_ahead :
    (∀ (c : Construct) (levels limit : Nat) (T T' : TokenList) (scope : ScopeId) (s : Progress),
      Ends (c.within levels) ⟨T, limit, scope⟩ s
        (fun r t => (∀ k ≤ t.position + 1, T'.get k = T.get k) →
          c.within levels ⟨T', limit, scope⟩ s = .ok r t)
        fun e t => (∀ k ≤ t.position + 1, T'.get k = T.get k) →
          c.within levels ⟨T', limit, scope⟩ s = .error e t) ∧
    (∀ (c : Construct) (s : Session) (T : TokenList),
      (∀ k ≤ (s.read c).2.position + 1, T.get k = s.tokens.get k) →
        { s with tokens := T }.read c = ((s.read c).1, { (s.read c).2 with tokens := T })) ∧
    ∀ (limit : Nat) (source source' : String) (T T' : TokenList), tokenize source = .ok T →
      tokenize source' = .ok T' →
      (∀ k ≤ ((Session.new limit).parse source).2.position + 1, T'.get k = T.get k) →
        parse limit source' = parse limit source := by
  refine ⟨fun c levels limit T T' scope s => ?_, fun c s T h => ?_, ?_⟩
  · exact (congruence_local.within levels c T T' limit scope s).imp (fun _ _ ht => ht.2)
      fun _ _ ht => ht.2
  · rw [Session.read_eq] at h ⊢
    rw [Session.read_eq]
    exact Session.run_of_agreeTo (congruence_local.within s.levels c) h
  · exact fun limit source source' T T' hT hT' h => parse_of_agreeTo hT hT' h

/-- `print(1 2, f(` and `print(1 2, 3);` part behind the comma, and `2` has no place in either. -/
theorem reading_looks_one_ahead_print :
    ∃ T T' : TokenList, tokenize "print(1 2, f(" = .ok T ∧ tokenize "print(1 2, 3);" = .ok T' ∧
      T.size = 7 ∧ T'.size = 8 ∧ (∀ k ≤ 4, T'.get k = T.get k) ∧ T'.get 5 ≠ T.get 5 ∧
      Ends (Construct.printed.within 3) ⟨T, 8, Arena.root⟩ ⟨0, .fresh⟩ (fun _ _ => False)
        (fun e t => e = ⟨.expected ", or )", .known 0 8⟩ ∧ t.position = 3 ∧
          Construct.printed.within 3 ⟨T', 8, Arena.root⟩ ⟨0, .fresh⟩ = .error e t) ∧
      { Session.new 8 with tokens := T' }.read .printed =
        (({ Session.new 8 with tokens := T }.read .printed).1,
          { ({ Session.new 8 with tokens := T }.read .printed).2 with tokens := T' }) ∧
      parse 8 "print(1 2, 3);" = parse 8 "print(1 2, f(" := by
  have h : (match tokenize "print(1 2, f(", tokenize "print(1 2, 3);" with
      | .ok T, .ok T' => decide (T.size = 7 ∧ T'.size = 8 ∧ (∀ k ≤ 4, T'.get k = T.get k) ∧
          T'.get 5 ≠ T.get 5 ∧ ({ Session.new 8 with tokens := T }.read .printed).2.position = 3 ∧
          ((Session.new 8).parse "print(1 2, f(").2.position = 3) &&
        match Construct.printed.within 3 ⟨T, 8, Arena.root⟩ ⟨0, .fresh⟩ with
        | .ok _ _ => false
        | .error e t => decide (e = ⟨.expected ", or )", .known 0 8⟩ ∧ t.position = 3)
      | _, _ => false) = true := by decide +kernel
  split at h
  · next T T' hT hT' =>
    rw [Bool.and_eq_true, decide_eq_true_eq] at h
    obtain ⟨⟨hsize, hsize', hagree, hpart, hread, hparse⟩, hrun⟩ := h
    obtain ⟨hlocal, hsession, htext⟩ := reading_looks_one_ahead
    refine ⟨T, T', hT, hT', hsize, hsize', hagree, hpart, ?_,
      hsession .printed _ T' (by rw [hread]; exact hagree),
      htext 8 _ _ T T' hT hT' (by rw [hparse]; exact hagree)⟩
    have hends := hlocal .printed 3 8 T T' Arena.root ⟨0, .fresh⟩
    unfold Ends at hends ⊢
    split at hends
    · next heq => rw [heq] at hrun; contradiction
    · next e t heq =>
      rw [heq] at hrun
      obtain ⟨he, ht⟩ := of_decide_eq_true hrun
      exact ⟨he, ht, hends (by rw [ht]; exact hagree)⟩
  · contradiction

end ScriptSyntax
