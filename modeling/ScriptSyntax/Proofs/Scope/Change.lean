import ScriptSyntax.Scope.Arena

/-!
What each change of an arena leaves to be read: the scopes, variables and functions behind every
handle after it.
-/

namespace ScriptSyntax

namespace Bindings

variable {Id : Type} {b : Bindings Id} {name : String} {id : Id}

/-- A name that was not bound is bound behind all the others. -/
theorem entries_bind (h : b.get? name = none) :
    (b.bind name id).entries = b.entries ++ [(name, id)] := by
  have hne : ∀ e ∈ b.entries, e.1 ≠ name := by
    intro e he hn
    obtain ⟨x, y⟩ := e
    dsimp only at hn
    subst hn
    have := List.lookup_eq_none_iff.1 h (x, y) he
    simp at this
  simp only [bind, List.filter_eq_self.2 fun e he => decide_eq_true (hne e he)]

/-- The newer handle is found, whatever the name was bound to. -/
theorem get?_bind_self : (b.bind name id).get? name = some id := by
  have hold : (b.entries.filter (·.1 ≠ name)).lookup name = none := by
    refine List.lookup_eq_none_iff.2 fun e he => ?_
    have hne : e.1 ≠ name := of_decide_eq_true (List.mem_filter.1 he).2
    simpa using hne.symm
  rw [get?, bind, List.lookup_append, hold]
  simp

theorem mem_of_get? (h : b.get? name = some id) : (name, id) ∈ b.entries := by
  obtain ⟨l₁, l₂, hl, -⟩ := List.lookup_eq_some_iff.1 h
  exact hl ▸ List.mem_append_right l₁ List.mem_cons_self

theorem exists_of_mem_ids (h : id ∈ b.ids) : ∃ name, (name, id) ∈ b.entries := by
  obtain ⟨⟨name, _⟩, he, rfl⟩ := List.mem_map.1 h
  exact ⟨name, he⟩

end Bindings

namespace Arena

variable {a b : Arena} {s t q : ScopeId} {v : VariableId} {f g : FunctionId}

theorem scopeAt_fresh : fresh.scopeAt t = {} := by
  rcases t with ⟨_ | n⟩ <;> rfl

theorem scopeAt_modifyScope {change : Scope → Scope} :
    (a.modifyScope s change).scopeAt t =
      if t = s ∧ t.index < a.scopeCount then change (a.scopeAt t) else a.scopeAt t := by
  simp only [scopeAt, modifyScope, Array.getElem?_modify, scopeCount]
  by_cases ht : t.index < a.scopes.size
  · by_cases hs : s.index = t.index
    · obtain rfl : s = t := ScopeId.ext hs
      simp [ht]
    · have : t ≠ s := fun h => hs (h ▸ rfl)
      simp [hs, this]
  · simp [ht]

theorem scopeCount_modifyScope {change : Scope → Scope} :
    (a.modifyScope s change).scopeCount = a.scopeCount := by
  simp [modifyScope, scopeCount]

/-- A new empty scope `q` inside `s`; the only other change is that `s` lists it. -/
structure ScopePushed (a : Arena) (s q : ScopeId) (b : Arena) : Prop where
  inside : s.index < a.scopeCount
  id : q.index = a.scopeCount
  scopeCount : b.scopeCount = a.scopeCount + 1
  declaredVariables : b.declaredVariables = a.declaredVariables
  declaredFunctions : b.declaredFunctions = a.declaredFunctions
  new : b.scopeAt q = { owner := some s }
  owner : b.scopeAt s = { a.scopeAt s with children := (a.scopeAt s).children.push q }
  elsewhere : ∀ {t}, t ≠ q → t ≠ s → b.scopeAt t = a.scopeAt t

theorem scopePushed (h : a.pushScope (some s) = (q, b)) (hs : s.index < a.scopeCount) :
    ScopePushed a s q b := by
  cases h
  have hpush : ∀ r (t : ScopeId), ({ a with scopes := a.scopes.push r } : Arena).scopeAt t =
      if t.index = a.scopeCount then r else a.scopeAt t := by
    intro r t
    simp only [scopeAt, Array.getElem?_push, scopeCount]
    by_cases ht : t.index = a.scopes.size <;> simp [ht]
  have hsize : ∀ r, ({ a with scopes := a.scopes.push r } : Arena).scopeCount =
      a.scopeCount + 1 := fun _ => Array.size_push ..
  have hne : (⟨a.scopeCount⟩ : ScopeId) ≠ s := fun h => by subst h; exact Nat.lt_irrefl _ hs
  exact {
    inside := hs
    id := rfl
    scopeCount := scopeCount_modifyScope.trans (hsize _)
    declaredVariables := rfl
    declaredFunctions := rfl
    new := by
      rw [scopeAt_modifyScope, if_neg fun h => hne h.1, hpush, if_pos rfl]
    owner := by
      rw [scopeAt_modifyScope, if_pos ⟨rfl, by rw [hsize]; omega⟩, hpush, if_neg (by omega)]
    elsewhere := fun {t} ht hts => by
      rw [scopeAt_modifyScope, if_neg fun h => hts h.1, hpush, if_neg]
      exact fun h => ht (ScopeId.ext h) }

theorem ScopePushed.lt (h : ScopePushed a s q b) : q.index < b.scopeCount := by
  rw [h.id, h.scopeCount]
  exact Nat.lt_succ_self _

theorem ScopePushed.ne_new (h : ScopePushed a s q b) (ht : t.index < a.scopeCount) : t ≠ q := by
  rintro rfl
  exact Nat.ne_of_lt ht h.id

theorem lt_pushScope (a : Arena) (s : ScopeId) :
    (a.pushScope (some s)).1.index < (a.pushScope (some s)).2.scopeCount := by
  dsimp only [pushScope]
  rw [scopeCount_modifyScope]
  exact Nat.lt_of_lt_of_eq (Nat.lt_succ_self _) (Array.size_push ..).symm

/-- The new scope is inside the one it was opened in, whether or not that exists. -/
theorem owner_pushScope (a : Arena) (s : ScopeId) :
    ((a.pushScope (some s)).2.scopeAt (a.pushScope (some s)).1).owner = some s := by
  dsimp only [pushScope]
  rw [scopeAt_modifyScope]
  split <;> simp [scopeAt, scopeCount]

/-- No scope that was there binds more or less than before. -/
theorem ScopePushed.bindings (h : ScopePushed a s q b) (ht : t ≠ q) :
    (b.scopeAt t).variableBindings = (a.scopeAt t).variableBindings ∧
      (b.scopeAt t).functionBindings = (a.scopeAt t).functionBindings := by
  by_cases hts : t = s
  · rw [hts, h.owner]
    exact ⟨rfl, rfl⟩
  · rw [h.elsewhere ht hts]
    exact ⟨rfl, rfl⟩

/-- A variable that was declared in scope `s` under a name that was free there. -/
structure VariableDefined (a : Arena) (s : ScopeId) (x : Variable) (v : VariableId) (b : Arena) :
    Prop where
  free : (a.scopeAt s).variableBindings.get? x.name = none
  id : v.index = a.declaredVariables.size
  scopeCount : b.scopeCount = a.scopeCount
  declaredVariables : b.declaredVariables = a.declaredVariables.push x
  declaredFunctions : b.declaredFunctions = a.declaredFunctions
  bound : s.index < a.scopeCount → b.scopeAt s =
    { a.scopeAt s with variableBindings := (a.scopeAt s).variableBindings.bind x.name v }
  elsewhere : ∀ {t}, t ≠ s → b.scopeAt t = a.scopeAt t

theorem VariableDefined.size {x : Variable} (h : VariableDefined a s x v b) :
    b.declaredVariables.size = a.declaredVariables.size + 1 := by
  rw [h.declaredVariables, Array.size_push]

theorem VariableDefined.lt {x : Variable} (h : VariableDefined a s x v b) :
    v.index < b.declaredVariables.size := by
  rw [h.id, h.size]
  exact Nat.lt_succ_self _

/-- The bindings of all scopes are those of before and the new one. -/
theorem VariableDefined.mem_entries {x : Variable} (h : VariableDefined a s x v b)
    (hs : s.index < a.scopeCount) {y : String} {w : VariableId}
    (hw : (y, w) ∈ (b.scopeAt t).variableBindings.entries) :
    (y, w) ∈ (a.scopeAt t).variableBindings.entries ∨ t = s ∧ y = x.name ∧ w = v := by
  by_cases hts : t = s
  · rw [hts, h.bound hs, Bindings.entries_bind h.free, List.mem_append, List.mem_singleton] at hw
    rw [hts]
    exact hw.imp_right fun hw => ⟨rfl, Prod.mk.inj hw⟩
  · rw [h.elsewhere hts] at hw
    exact .inl hw

theorem VariableDefined.functionBindings {x : Variable} (h : VariableDefined a s x v b)
    (hs : s.index < a.scopeCount) :
    (b.scopeAt t).functionBindings = (a.scopeAt t).functionBindings := by
  by_cases hts : t = s
  · rw [hts, h.bound hs]
  · rw [h.elsewhere hts]

theorem VariableDefined.children {x : Variable} (h : VariableDefined a s x v b)
    (ht : t.index < a.scopeCount) : (b.scopeAt t).children = (a.scopeAt t).children := by
  by_cases hts : t = s
  · subst hts
    rw [h.bound ht]
  · rw [h.elsewhere hts]

theorem defineVariable_ok {x : Variable} {replace : Bool} :
    a.defineVariable s x replace = .ok (v, b) ↔
      ((a.scopeAt s).variableBindings.get? x.name = none ∨ replace = true) ∧
        v = ⟨a.declaredVariables.size⟩ ∧
        b = { a.modifyScope s fun r =>
            { r with variableBindings := r.variableBindings.bind x.name v } with
          declaredVariables := a.declaredVariables.push x } := by
  unfold defineVariable
  constructor
  · intro h
    split at h
    · contradiction
    · next hfree =>
      cases h
      refine ⟨?_, rfl, rfl⟩
      cases hx : (a.scopeAt s).variableBindings.get? x.name with
      | none => exact .inl rfl
      | some existing => exact .inr (eq_true_of_ne_false (hfree existing hx))
  · rintro ⟨h, rfl, rfl⟩
    split
    · next hx =>
      rw [hx] at h
      exact nomatch h
    · rfl

theorem variableDefined {x : Variable} (h : a.defineVariable s x false = .ok (v, b)) :
    VariableDefined a s x v b := by
  obtain ⟨hfree, rfl, rfl⟩ := defineVariable_ok.1 h
  exact {
    free := hfree.resolve_right Bool.false_ne_true
    id := rfl
    scopeCount := scopeCount_modifyScope
    declaredVariables := rfl
    declaredFunctions := rfl
    bound := fun hs => scopeAt_modifyScope.trans (if_pos ⟨rfl, hs⟩)
    elsewhere := fun ht => scopeAt_modifyScope.trans (if_neg fun h => ht h.1) }

/-- A function that was declared in scope `s` under a name that was free there. -/
structure FunctionDefined (a : Arena) (s : ScopeId) (x : Function) (f : FunctionId) (b : Arena) :
    Prop where
  free : (a.scopeAt s).functionBindings.get? x.signature.name = none
  id : f.index = a.declaredFunctions.size
  scopeCount : b.scopeCount = a.scopeCount
  declaredVariables : b.declaredVariables = a.declaredVariables
  declaredFunctions : b.declaredFunctions = a.declaredFunctions.push x
  bound : s.index < a.scopeCount → b.scopeAt s =
    { a.scopeAt s with functionBindings := (a.scopeAt s).functionBindings.bind x.signature.name f }
  elsewhere : ∀ {t}, t ≠ s → b.scopeAt t = a.scopeAt t

theorem FunctionDefined.size {x : Function} (h : FunctionDefined a s x f b) :
    b.declaredFunctions.size = a.declaredFunctions.size + 1 := by
  rw [h.declaredFunctions, Array.size_push]

theorem FunctionDefined.lt {x : Function} (h : FunctionDefined a s x f b) :
    f.index < b.declaredFunctions.size := by
  rw [h.id, h.size]
  exact Nat.lt_succ_self _

theorem FunctionDefined.mem_entries {x : Function} (h : FunctionDefined a s x f b)
    (hs : s.index < a.scopeCount) {y : String} {g : FunctionId}
    (hg : (y, g) ∈ (b.scopeAt t).functionBindings.entries) :
    (y, g) ∈ (a.scopeAt t).functionBindings.entries ∨ t = s ∧ y = x.signature.name ∧ g = f := by
  by_cases hts : t = s
  · rw [hts, h.bound hs, Bindings.entries_bind h.free, List.mem_append, List.mem_singleton] at hg
    rw [hts]
    exact hg.imp_right fun hg => ⟨rfl, Prod.mk.inj hg⟩
  · rw [h.elsewhere hts] at hg
    exact .inl hg

theorem FunctionDefined.variableBindings {x : Function} (h : FunctionDefined a s x f b)
    (hs : s.index < a.scopeCount) :
    (b.scopeAt t).variableBindings = (a.scopeAt t).variableBindings := by
  by_cases hts : t = s
  · rw [hts, h.bound hs]
  · rw [h.elsewhere hts]

theorem FunctionDefined.children {x : Function} (h : FunctionDefined a s x f b)
    (ht : t.index < a.scopeCount) : (b.scopeAt t).children = (a.scopeAt t).children := by
  by_cases hts : t = s
  · subst hts
    rw [h.bound ht]
  · rw [h.elsewhere hts]

theorem defineFunction_ok {x : Function} {replace : Bool} :
    a.defineFunction s x replace = .ok (f, b) ↔
      ((a.scopeAt s).functionBindings.get? x.signature.name = none ∨ replace = true) ∧
        f = ⟨a.declaredFunctions.size⟩ ∧
        b = { a.modifyScope s fun r =>
            { r with functionBindings := r.functionBindings.bind x.signature.name f } with
          declaredFunctions := a.declaredFunctions.push x } := by
  unfold defineFunction
  constructor
  · intro h
    split at h
    · contradiction
    · next hfree =>
      cases h
      refine ⟨?_, rfl, rfl⟩
      cases hx : (a.scopeAt s).functionBindings.get? x.signature.name with
      | none => exact .inl rfl
      | some existing => exact .inr (eq_true_of_ne_false (hfree existing hx))
  · rintro ⟨h, rfl, rfl⟩
    split
    · next hx =>
      rw [hx] at h
      exact nomatch h
    · rfl

theorem functionDefined {x : Function} (h : a.defineFunction s x false = .ok (f, b)) :
    FunctionDefined a s x f b := by
  obtain ⟨hfree, rfl, rfl⟩ := defineFunction_ok.1 h
  exact {
    free := hfree.resolve_right Bool.false_ne_true
    id := rfl
    scopeCount := scopeCount_modifyScope
    declaredVariables := rfl
    declaredFunctions := rfl
    bound := fun hs => scopeAt_modifyScope.trans (if_pos ⟨rfl, hs⟩)
    elsewhere := fun ht => scopeAt_modifyScope.trans (if_neg fun h => ht h.1) }

theorem variableAt_congr (h : b.declaredVariables = a.declaredVariables) :
    b.variableAt v = a.variableAt v := by
  rw [variableAt, variableAt, h]

theorem functionAt_congr (h : b.declaredFunctions = a.declaredFunctions) :
    b.functionAt f = a.functionAt f := by
  rw [functionAt, functionAt, h]

theorem variableAt_of_push {x : Variable}
    (h : b.declaredVariables = a.declaredVariables.push x) :
    b.variableAt v = if v.index = a.declaredVariables.size then x else a.variableAt v := by
  simp only [variableAt, h, Array.getElem?_push]
  split <;> rfl

theorem functionAt_of_push {x : Function}
    (h : b.declaredFunctions = a.declaredFunctions.push x) :
    b.functionAt f = if f.index = a.declaredFunctions.size then x else a.functionAt f := by
  simp only [functionAt, h, Array.getElem?_push]
  split <;> rfl

theorem VariableDefined.stored {x : Variable} (h : VariableDefined a s x v b) :
    b.variableAt v = x :=
  (variableAt_of_push h.declaredVariables).trans (if_pos h.id)

theorem FunctionDefined.stored {x : Function} (h : FunctionDefined a s x f b) :
    b.functionAt f = x :=
  (functionAt_of_push h.declaredFunctions).trans (if_pos h.id)

theorem setBody_size {body : Block} {span : Span} :
    (a.setBody f body span).declaredFunctions.size = a.declaredFunctions.size := by
  simp [setBody]

theorem functionAt_setBody {body : Block} {span : Span} :
    (a.setBody f body span).functionAt g =
      if g = f ∧ g.index < a.declaredFunctions.size then { a.functionAt g with body, span }
      else a.functionAt g := by
  simp only [functionAt, setBody, Array.getElem?_modify]
  by_cases hg : g.index < a.declaredFunctions.size
  · by_cases hf : f.index = g.index
    · obtain rfl : f = g := FunctionId.ext hf
      simp [hg]
    · have : g ≠ f := fun h => hf (h ▸ rfl)
      simp [hf, this]
  · simp [hg]

end Arena

end ScriptSyntax
