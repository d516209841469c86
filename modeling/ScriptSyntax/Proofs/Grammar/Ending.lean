import ScriptSyntax.Grammar.Statement

/-!
How a run of a parser ends: with a result, or with a failure. What is asked of the two is carried
backwards through the building blocks.
-/

namespace ScriptSyntax.Parser

variable {α β : Type} {c : Context} {s : Progress}

/-- The run of `p` from `s` ends well for `Q`, or badly for `E`. -/
def Ends (p : Parser α) (c : Context) (s : Progress) (Q : α → Progress → Prop)
    (E : Failure → Progress → Prop) : Prop :=
  match p c s with
  | .ok a t => Q a t
  | .error e t => E e t

variable {Q Q' : α → Progress → Prop} {E E' : Failure → Progress → Prop}

theorem Ends.imp {p : Parser α} (h : Ends p c s Q E) (hQ : ∀ a t, Q a t → Q' a t)
    (hE : ∀ e t, E e t → E' e t) : Ends p c s Q' E' := by
  unfold Ends at h ⊢
  split
  · next a t hr =>
    rw [hr] at h
    exact hQ a t h
  · next e t hr =>
    rw [hr] at h
    exact hE e t h

theorem Ends.and {p : Parser α} (h : Ends p c s Q E) (h' : Ends p c s Q' E') :
    Ends p c s (fun a t => Q a t ∧ Q' a t) fun e t => E e t ∧ E' e t := by
  unfold Ends at h h' ⊢
  split
  · next a t hr =>
    rw [hr] at h h'
    exact ⟨h, h'⟩
  · next e t hr =>
    rw [hr] at h h'
    exact ⟨h, h'⟩

theorem Ends.result {p : Parser α} (h : Ends p c s Q E) :
    (∃ a t, p c s = .ok a t ∧ Q a t) ∨ ∃ e t, p c s = .error e t ∧ E e t := by
  unfold Ends at h
  split at h
  · next a t hr => exact Or.inl ⟨a, t, hr, h⟩
  · next e t hr => exact Or.inr ⟨e, t, hr, h⟩

theorem ends_pure {a : α} : Ends (pure a) c s Q E ↔ Q a s := Iff.rfl

theorem ends_fail {cause : Cause} {l : Location} : Ends (fail cause l) c s Q E ↔ E ⟨cause, l⟩ s :=
  Iff.rfl

theorem ends_bind {p : Parser α} {f : α → Parser β} {Q : β → Progress → Prop} :
    Ends (p >>= f) c s Q E ↔ Ends p c s (fun a t => Ends (f a) c t Q E) E := by
  unfold Ends
  rw [bind_run]
  cases p c s <;> rfl

theorem ends_get {Q : Progress → Progress → Prop} : Ends get c s Q E ↔ Q s s := Iff.rfl

theorem ends_scope {Q : ScopeId → Progress → Prop} : Ends scope c s Q E ↔ Q c.scope s := Iff.rfl

theorem ends_advance {Q : Token → Progress → Prop} :
    Ends advance c s Q E ↔ Q (c.tokens.get s.position) { s with position := s.position + 1 } :=
  Iff.rfl

theorem ends_expect {kind : TokenKind} {what : String} {Q : Token → Progress → Prop} :
    Ends (expect kind what) c s Q E ↔
      ((c.tokens.get s.position).kind = kind →
        Q (c.tokens.get s.position) { s with position := s.position + 1 }) ∧
      ((c.tokens.get s.position).kind ≠ kind →
        E ⟨.expected what, (c.tokens.get s.position).location⟩ s) := by
  unfold Ends
  rw [expect_run]
  by_cases h : (c.tokens.get s.position).kind = kind <;> simp [h]

theorem ends_accept {kind : TokenKind} {Q : Bool → Progress → Prop} :
    Ends (accept kind) c s Q E ↔
      ((c.tokens.get s.position).kind = kind →
        Q true { s with position := s.position + 1 }) ∧
      ((c.tokens.get s.position).kind ≠ kind → Q false s) := by
  unfold Ends
  rw [accept_run]
  by_cases h : (c.tokens.get s.position).kind = kind <;> simp [h]

theorem ends_resolve {name : Token} {Q : VariableId → Progress → Prop} :
    Ends (resolve name) c s Q E ↔
      (∀ x, s.arena.lookupVariable? c.scope name.text = some x → Q x s) ∧
      (s.arena.lookupVariable? c.scope name.text = none →
        E ⟨.unknownVariable name.text, name.location⟩ s) := by
  simp only [resolve, ends_bind, ends_get, ends_scope]
  cases s.arena.lookupVariable? c.scope name.text <;> simp [ends_pure, ends_fail]

theorem ends_inNewScope {p : Parser α} :
    Ends (inNewScope p) c s Q E ↔
      Ends p { c with scope := (s.arena.pushScope (some c.scope)).1 }
        { s with arena := (s.arena.pushScope (some c.scope)).2 } Q E := Iff.rfl

end ScriptSyntax.Parser
