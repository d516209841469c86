import Mathlib.Data.Nat.Find
import Mathlib.Order.UpperLower.Basic
import ScriptSyntax.Proofs.Arrangement
import ScriptSyntax.Proofs.Grammar.Congruence

/-!
A greater nesting limit changes nothing but that less is found too deep: what a text comes to under
one limit, unless it is nested too deep for it, is what it comes to under every greater one.
-/

namespace ScriptSyntax

namespace Parser

variable {α β : Type}

/-- `p` finds its limit too low, or does what `q` does under any limit. -/
def Relaxes (p q : Parser α) : Prop :=
  ∀ T s t limit limit', (∃ l r, p ⟨T, limit, s⟩ t = .error ⟨.nestingTooDeep limit, l⟩ r) ∨
    q ⟨T, limit', s⟩ t = p ⟨T, limit, s⟩ t ∧
      ∀ e r, p ⟨T, limit, s⟩ t = .error e r → e.cause.isNesting = false

/-- A step that does not look at the limit and does not fail. -/
theorem Relaxes.step {p : Parser α} (f : TokenList → ScopeId → Progress → α × Progress)
    (h : ∀ c t, p c t = .ok (f c.tokens c.scope t).1 (f c.tokens c.scope t).2) : Relaxes p p := by
  intro T s t limit limit'
  rw [h, h]
  exact .inr ⟨rfl, nofun⟩

theorem Relaxes.bind {p q : Parser α} {f g : α → Parser β} (h : Relaxes p q)
    (hf : ∀ a, Relaxes (f a) (g a)) : Relaxes (p >>= f) (q >>= g) := by
  intro T s t limit limit'
  rw [bind_run, bind_run]
  rcases h T s t limit limit' with ⟨l, r, hdeep⟩ | ⟨heq, he⟩
  · rw [hdeep]
    exact .inl ⟨l, r, rfl⟩
  · rw [heq]
    cases hrun : p ⟨T, limit, s⟩ t with
    | ok a r => exact hf a T s r limit limit'
    | error e r =>
      refine .inr ⟨rfl, ?_⟩
      rintro _ _ ⟨⟩
      exact he e r hrun

theorem relaxes_pure (a : α) : Relaxes (pure a) (pure a) :=
  .step (fun _ _ t => (a, t)) fun _ _ => rfl

theorem relaxes_fail {cause : Cause} (l : Location) (h : cause.isNesting = false) :
    Relaxes (fail cause l : Parser α) (fail cause l) := by
  intro T s t limit limit'
  refine .inr ⟨rfl, ?_⟩
  rintro e r ⟨⟩
  exact h

theorem relaxes_tooDeep (p : Parser α) : Relaxes tooDeep p :=
  fun _ _ t _ _ => .inl ⟨_, t, rfl⟩

theorem relaxes_get : Relaxes (get : Parser Progress) get :=
  .step (fun _ _ t => (t, t)) fun _ _ => rfl

theorem relaxes_scope : Relaxes scope scope := .step (fun _ s t => (s, t)) fun _ _ => rfl

theorem relaxes_modify (f : Progress → Progress) : Relaxes (modify f : Parser Unit) (modify f) :=
  .step (fun _ _ t => ((), f t)) fun _ _ => rfl

theorem relaxes_define (type : ValueType) (name : Token) :
    Relaxes (define type name) (define type name) := by
  apply relaxes_scope.bind
  intro owner
  apply relaxes_get.bind
  intro s
  split
  · exact (relaxes_modify _).bind fun _ => relaxes_pure _
  · exact relaxes_fail _ rfl

theorem relaxes_defineFunction (owner : ScopeId) (signature : Signature) (name start : Token) :
    Relaxes (defineFunction owner signature name start)
      (defineFunction owner signature name start) := by
  apply relaxes_scope.bind
  intro parameterScope
  apply relaxes_get.bind
  intro s
  split
  · exact (relaxes_modify _).bind fun _ => relaxes_pure _
  · exact relaxes_fail _ rfl

theorem relaxes_defineAll (parameters : List (ValueType × Token)) :
    Relaxes (defineAll parameters) (defineAll parameters) := by
  induction parameters with
  | nil => exact relaxes_pure _
  | cons p parameters ih => exact (relaxes_define p.1 p.2).bind fun _ => ih

theorem Relaxes.inNewScope {p q : Parser α} (h : Relaxes p q) :
    Relaxes (inNewScope p) (inNewScope q) := fun T _ _ limit limit' => h T _ _ limit limit'

theorem congruence_relaxes : Congruence fun _ => Relaxes where
  pure := relaxes_pure
  bind := Relaxes.bind
  fail := relaxes_fail
  tooDeep := relaxes_tooDeep _
  get := relaxes_get
  scope := relaxes_scope
  bounded _ := Relaxes.bind (.step (fun T _ t => (T.size - t.position, t)) fun _ _ => rfl)
  tokenAt n _ := .step (fun T _ t => (T.get (t.position + n), t)) fun _ _ => rfl
  advance := .step (fun T _ t => (T.get t.position, { t with position := t.position + 1 }))
    fun _ _ => rfl
  define := relaxes_define
  inNewScope := Relaxes.inNewScope
  declared parameters signature name start h := by
    apply relaxes_scope.bind
    intro owner
    apply Relaxes.inNewScope
    apply (relaxes_defineAll parameters).bind
    intro _
    apply (relaxes_defineFunction owner signature name start).bind
    intro f
    apply h.bind
    intro block
    exact (relaxes_modify _).bind fun _ => relaxes_pure _
  finished f := relaxes_get.bind fun _ => (relaxes_modify _).bind fun _ => relaxes_pure _

/-- What some number of levels reads, a least one does, and with fewer the limit is too low. -/
theorem Relaxes.least_levels {p : Nat → Parser α} (hp : ∀ {m n}, m ≤ n → Relaxes (p m) (p n))
    {c : Context} {t u : Progress} {x : α} {m : Nat} (h : p m c t = .ok x u) :
    ∃ n, ∀ levels, (n ≤ levels → p levels c t = .ok x u) ∧
      (levels < n → ∃ l r, p levels c t = .error ⟨.nestingTooDeep c.limit, l⟩ r) := by
  classical
  have hex : ∃ m, p m c t = .ok x u := ⟨m, h⟩
  have hfind := Nat.find_spec hex
  refine ⟨Nat.find hex, fun levels => ⟨fun hle => ?_, fun hlt => ?_⟩⟩
  · rcases hp hle c.tokens c.scope t c.limit c.limit with ⟨l, r, hdeep⟩ | ⟨heq, -⟩
    · rw [hfind] at hdeep
      contradiction
    · exact heq.trans hfind
  · rcases hp hlt.le c.tokens c.scope t c.limit c.limit with hdeep | ⟨heq, -⟩
    · exact hdeep
    · exact absurd (heq.symm.trans hfind) (Nat.find_min hex hlt)

end Parser

/-- A text that cannot be cut into tokens is not found too deep. -/
theorem Lexeme.not_nesting {front : List UInt8} {cause : Cause} {length : Nat}
    (h : Lexeme.first front = .error (cause, length)) : cause.isNesting = false := by
  unfold Lexeme.first at h
  split at h
  · cases h
    rfl
  split at h
  · contradiction
  split at h
  · contradiction
  split at h
  · split at h
    · contradiction
    · cases h
      rfl
  split at h
  · contradiction
  · cases h
    rfl

theorem not_nesting_of_tokenize {source : String} {e : Failure} (h : tokenize source = .error e) :
    e.cause.isNesting = false := by
  have hall : ∀ c l e, (TokenList.scanFrom c l).2 = some e → e.cause.isNesting = false := by
    intro c l
    induction c, l using TokenList.scanFrom.induct with
    | case1 c l c' hend =>
      rw [TokenList.scanFrom, if_pos hend]
      rintro e ⟨⟩
    | case2 c l c' hend lexeme hf ih =>
      rw [TokenList.scanFrom_token l hf]
      exact ih
    | case3 c l c' hend cause length hf =>
      rw [TokenList.scanFrom, if_neg hend]
      split
      · next hl =>
        rw [hf] at hl
        contradiction
      · next hl =>
        rintro e ⟨⟩
        exact Lexeme.not_nesting hl
  unfold tokenize at h
  split at h
  · contradiction
  · next failure hscan =>
    cases h
    exact hall (.start source) {} e (congrArg Prod.snd hscan)

/-- A reading is found too deep, or ends as it does under any greater limit. -/
theorem parse_deepened (source : String) {limit limit' : Nat} (h : limit ≤ limit') :
    (∃ l, parse limit source = .error ⟨.nestingTooDeep limit, l⟩) ∨
      parse limit' source = parse limit source ∧
        ∀ e, parse limit source = .error e → e.cause.isNesting = false := by
  cases hT : tokenize source with
  | error e =>
    refine .inr ⟨?_, ?_⟩
    · rw [parse_of_tokenize_error limit hT, parse_of_tokenize_error limit' hT]
    · rw [parse_of_tokenize_error limit hT]
      rintro _ ⟨⟩
      exact not_nesting_of_tokenize hT
  | ok T =>
    rw [parse_of_tokenize limit hT, parse_of_tokenize limit' hT]
    have hcovers : Parser.Congruence.Covers (fun _ => Parser.Relaxes) limit limit' :=
      .inr ⟨h, fun _ => Parser.relaxes_tooDeep⟩
    rcases Parser.congruence_relaxes.topLevel hcovers T Arena.root ⟨0, .fresh⟩ limit limit' with
      ⟨l, r, hdeep⟩ | ⟨heq, he⟩
    · rw [hdeep]
      exact .inl ⟨l, rfl⟩
    · rw [heq]
      refine .inr ⟨rfl, ?_⟩
      cases hrun : Parser.topLevel limit ⟨T, limit, Arena.root⟩ ⟨0, .fresh⟩ with
      | ok f t => exact nofun
      | error e t =>
        rintro _ ⟨⟩
        exact he e t hrun

/-- The limits under which a text is not found too deep. -/
def ampleLimits (source : String) : Set Nat :=
  {limit | ∀ n l, parse limit source ≠ .error ⟨.nestingTooDeep n, l⟩}

theorem parse_eq_of_ample {source : String} {limit limit' : Nat} (h : limit ≤ limit')
    (ha : limit ∈ ampleLimits source) : parse limit' source = parse limit source := by
  rcases parse_deepened source h with ⟨l, hdeep⟩ | ⟨heq, -⟩
  · exact absurd hdeep (ha limit l)
  · exact heq

/-- All that a limit can do is to find a text too deep, and then it is named. A program and any
other failure stay the same under every greater limit, so that the limits under which the text is
not too deep go on from the least of them, and it comes to the same under all of these. -/
theorem limit_only_finds_too_deep (source : String) :
    (∀ limit limit', limit ≤ limit' →
      (∀ p, parse limit source = .ok p → parse limit' source = .ok p) ∧
      (∀ e, parse limit source = .error e → (∀ n, e.cause ≠ .nestingTooDeep n) →
        parse limit' source = .error e) ∧
      ∀ n l, parse limit source = .error ⟨.nestingTooDeep n, l⟩ → n = limit) ∧
    IsUpperSet (ampleLimits source) ∧
    ∀ limit ∈ ampleLimits source, ∀ limit' ∈ ampleLimits source,
      parse limit source = parse limit' source := by
  refine ⟨fun limit limit' h => ⟨fun p hp => ?_, fun e he hcause => ?_, fun n l hdeep => ?_⟩,
    fun limit limit' h ha => ?_, fun limit ha limit' ha' => ?_⟩
  · have hample : limit ∈ ampleLimits source := by
      intro n l hdeep
      rw [hp] at hdeep
      contradiction
    rw [parse_eq_of_ample h hample, hp]
  · have hample : limit ∈ ampleLimits source := by
      intro n l hdeep
      rw [he] at hdeep
      cases hdeep
      exact hcause n rfl
    rw [parse_eq_of_ample h hample, he]
  · rcases parse_deepened source (Nat.le_refl limit) with ⟨l', hdeep'⟩ | ⟨-, he⟩
    · rw [hdeep'] at hdeep
      cases hdeep
      rfl
    · exact nomatch he _ hdeep
  · intro n l hdeep
    rw [parse_eq_of_ample h ha] at hdeep
    exact ha n l hdeep
  · rcases Nat.le_total limit limit' with h | h
    · exact (parse_eq_of_ample h ha).symm
    · exact parse_eq_of_ample h ha'

/-- Two pairs of parentheses are too deep for a limit of two, and no deeper limit than three is
needed for the number or the unknown name inside them. -/
theorem limit_only_finds_too_deep_parentheses :
    (∃ l, parse 2 "((1));" = .error ⟨.nestingTooDeep 2, l⟩) ∧
    (∃ p, parse 3 "((1));" = .ok p ∧ parse 8 "((1));" = .ok p) ∧
    (∃ e, parse 3 "((x));" = .error e ∧ parse 8 "((x));" = .error e) ∧
    3 ∈ ampleLimits "((1));" ∧ 5 ∈ ampleLimits "((1));" ∧
      parse 3 "((1));" = parse 5 "((1));" := by
  obtain ⟨hkeep, hupper, hsame⟩ := limit_only_finds_too_deep "((1));"
  obtain ⟨hkeep', -, -⟩ := limit_only_finds_too_deep "((x));"
  have hdeep : parse 2 "((1));" = .error ⟨.nestingTooDeep 2, .known 0 2⟩ := by decide +kernel
  have hok : (parse 3 "((1));").isOk = true := by decide +kernel
  have hunknown : parse 3 "((x));" = .error ⟨.unknownVariable "x", .known 0 2⟩ := by
    decide +kernel
  obtain ⟨p, hp⟩ : ∃ p, parse 3 "((1));" = .ok p := by
    cases h : parse 3 "((1));" with
    | ok p => exact ⟨p, rfl⟩
    | error e => rw [h] at hok; contradiction
  have hample : 3 ∈ ampleLimits "((1));" := by
    intro n l h
    rw [hp] at h
    contradiction
  have hample' : 5 ∈ ampleLimits "((1));" := hupper (by decide) hample
  exact ⟨⟨_, hdeep⟩, ⟨p, hp, (hkeep 3 8 (by decide)).1 p hp⟩,
    ⟨_, hunknown, (hkeep' 3 8 (by decide)).2.1 _ hunknown nofun⟩, hample, hample',
    hsame 3 hample 5 hample'⟩

end ScriptSyntax
