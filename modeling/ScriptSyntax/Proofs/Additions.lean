import ScriptSyntax.Proofs.Sessions

/-!
Reading only adds to an arena, and what fails on the way takes nothing back: older scopes and
declarations stay as they were, but for what the current scope gains.
-/

namespace ScriptSyntax

namespace Arena

variable {a b : Arena} {s : ScopeId}

/-- All that `a` held, `b` holds, and of the scopes of `a` only `current` has more in it. -/
structure OnlyAdds (current : ScopeId) (a b : Arena) : Prop where
  scopes : a.scopeCount ≤ b.scopeCount
  owner : ∀ t : ScopeId, t.index < a.scopeCount → (b.scopeAt t).owner = (a.scopeAt t).owner
  children : ∀ t : ScopeId, t.index < a.scopeCount →
    (a.scopeAt t).children.toList <+: (b.scopeAt t).children.toList
  boundVariables : ∀ t : ScopeId, t.index < a.scopeCount → ∀ name x,
    (a.scopeAt t).variableBindings.get? name = some x →
      (b.scopeAt t).variableBindings.get? name = some x
  boundFunctions : ∀ t : ScopeId, t.index < a.scopeCount → ∀ name f,
    (a.scopeAt t).functionBindings.get? name = some f →
      (b.scopeAt t).functionBindings.get? name = some f
  variableAt : ∀ x : VariableId, x.index < a.declaredVariables.size →
    x.index < b.declaredVariables.size ∧ b.variableAt x = a.variableAt x
  functionAt : ∀ f : FunctionId, f.index < a.declaredFunctions.size →
    f.index < b.declaredFunctions.size ∧ b.functionAt f = a.functionAt f
  elsewhere : ∀ t : ScopeId, t.index < a.scopeCount → t ≠ current → b.scopeAt t = a.scopeAt t

theorem Enclosed.scopeAt (h : Enclosed (some s) a b) {t : ScopeId} (ht : t.index < a.scopeCount)
    (hts : t ≠ s) : b.scopeAt t = a.scopeAt t := by
  have hne : some t ≠ some s := fun heq => hts (Option.some.inj heq)
  obtain ⟨hvariables, hfunctions⟩ := h.elsewhere ht hne
  have howner := h.owner ht
  have hchildren := h.childless ht hne
  cases ha : a.scopeAt t
  cases hb : b.scopeAt t
  rw [ha, hb] at howner hchildren hvariables hfunctions
  cases howner
  cases hchildren
  cases hvariables
  cases hfunctions
  rfl

theorem Enclosed.onlyAdds (h : Enclosed (some s) a b) : OnlyAdds s a b where
  scopes := h.scopeCount
  owner _ ht := h.owner ht
  children _ ht := h.children ht
  boundVariables _ ht _ _ hx := (h.variableBindings ht).get? hx
  boundFunctions _ ht _ _ hf := (h.functionBindings ht).get? hf
  variableAt _ hx := ⟨Nat.lt_of_lt_of_le hx h.variableCount, h.variableAt hx⟩
  functionAt _ hf := ⟨Nat.lt_of_lt_of_le hf h.functionCount, h.functionAt hf⟩
  elsewhere _ ht hts := h.scopeAt ht hts

end Arena

open Arena ScriptSyntax.Parser

/-- Whether reading a construct succeeds or fails, from any state with a current scope and with any
number of levels left, it only adds to the arena; and so it does in a session, whatever was done
with that before. -/
theorem reading_only_adds :
    (∀ (c : Construct) (levels : Nat) (x : Context) (s : Progress),
      x.scope.index < s.arena.scopeCount →
        Ends (c.within levels) x s (fun _ t => OnlyAdds x.scope s.arena t.arena)
          fun _ t => OnlyAdds x.scope s.arena t.arena) ∧
    ∀ (limit : Nat) (operations : List Operation) (c : Construct),
      OnlyAdds (Session.history limit operations).scope (Session.history limit operations).arena
        ((Session.history limit operations).read c).2.arena := by
  constructor
  · intro c levels x s hx
    exact (congruence_keeps.within levels c x s hx).imp (fun _ _ ht => ht.onlyAdds)
      fun _ _ ht => ht.onlyAdds
  · intro limit operations c
    have h := Session.balanced_history limit operations
    generalize Session.history limit operations = s at h
    have henclosed : Enclosed (some s.scope) s.arena (s.run (c.within s.levels)).2.arena :=
      Session.run_of_ends (congruence_keeps.within s.levels c _ _ h.root.lt)
    rw [Session.read_eq]
    exact henclosed.onlyAdds

/-- The function whose body fails stays declared, with the scopes of its parameters and of its body,
and what stood beside it in the root is as it was. -/
theorem reading_only_adds_failed :
    ∃ s : Session,
      s = Session.history 8 [.parse "x; int a = 1; function void f(int b) \x7b int c = d;",
        .accept Symbol.semicolon, .read .statement] ∧
      (s.read .functionDeclaration).1.isOk = false ∧
      s.scope.index < s.arena.scopeCount ∧ s.arena.scopeCount = 1 ∧
      (s.read .functionDeclaration).2.arena.scopeCount = 3 ∧
      (s.arena.scopeAt s.scope).variableBindings.get? "a" = some ⟨0⟩ ∧
      ((s.read .functionDeclaration).2.arena.scopeAt s.scope).functionBindings.get? "f" = some ⟨0⟩ ∧
      OnlyAdds s.scope s.arena (s.read .functionDeclaration).2.arena ∧
      Ends (Construct.functionDeclaration.within 3) ⟨s.tokens, 8, s.scope⟩ ⟨s.position, s.arena⟩
        (fun _ t => OnlyAdds s.scope s.arena t.arena)
        fun _ t => OnlyAdds s.scope s.arena t.arena := by
  refine ⟨_, rfl, ?_, ?_, ?_, ?_, ?_, ?_, reading_only_adds.2 .., reading_only_adds.1 _ _ _ _ ?_⟩
  all_goals decide +kernel

end ScriptSyntax
