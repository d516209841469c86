import Mathlib.Logic.Relation
import ScriptSyntax.Proofs.Scope.Growth

/-!
The steps by which reading changes an arena, and what every such step keeps: each scope is a child
of an older one, and each declaration is bound in the scope that owns it.
-/

namespace ScriptSyntax.Arena

/-- The types that variables and parameters may have. -/
def variableTypes : List ValueType := [.int, .double, .string]

inductive Step (a : Arena) : Arena → Prop
  | scope {s q b} : ScopePushed a s q b → a.Step b
  | declare {s x v b} : s.index < a.scopeCount → x.owner = s → x.type ∈ variableTypes →
    VariableDefined a s x v b → a.Step b
  | define {s x f b} : s.index < a.scopeCount → x.owner = s → FunctionDefined a s x f b →
    a.Step b
  | body {f block span} : a.Step (a.setBody f block span)

/-- Any number of steps. -/
abbrev Steps : Arena → Arena → Prop := Relation.ReflTransGen Step

/-- What a step keeps is kept by any number of them. -/
theorem Steps.keep {P : Arena → Prop} {a b : Arena} (hP : ∀ {a b}, a.Step b → P a → P b)
    (h : Steps a b) (ha : P a) : P b := by
  induction h with
  | refl => exact ha
  | tail _ hs ih => exact hP hs ih

/-- Each scope but the root is a child of an older one. -/
def Rooted (a : Arena) : Prop :=
  ∀ t : ScopeId, t ≠ root → t.index < a.scopeCount →
    ∃ o : ScopeId, o.index < t.index ∧ t ∈ (a.scopeAt o).children

theorem Rooted.fresh : Rooted .fresh := by
  intro t ht hlt
  have : t.index = 0 := Nat.lt_one_iff.1 hlt
  exact absurd (ScopeId.ext this) ht

variable {a b : Arena}

/-- Scopes lose no children. -/
theorem Rooted.of_children (h : a.Rooted) (hcount : b.scopeCount = a.scopeCount)
    (hc : ∀ t, (b.scopeAt t).children = (a.scopeAt t).children) : b.Rooted := by
  intro t ht hlt
  obtain ⟨o, ho, hmem⟩ := h t ht (hcount ▸ hlt)
  exact ⟨o, ho, by rw [hc]; exact hmem⟩

theorem Rooted.step (hs : a.Step b) (h : a.Rooted) : b.Rooted := by
  cases hs with
  | @scope s q _ hp =>
    have hid := hp.id
    have hinside := hp.inside
    intro t ht hlt
    by_cases htq : t = q
    · refine ⟨s, by rw [htq, hid]; exact hinside, ?_⟩
      rw [hp.owner, htq]
      exact Array.mem_push_self
    · have hlt' : t.index < a.scopeCount := by
        have hne : t.index ≠ q.index := fun h => htq (ScopeId.ext h)
        rw [hp.scopeCount] at hlt
        omega
      obtain ⟨o, ho, hmem⟩ := h t ht hlt'
      refine ⟨o, ho, ?_⟩
      -- The scope around the new one has it behind the children of before.
      by_cases hos : o = s
      · subst hos
        rw [hp.owner]
        exact Array.mem_push_of_mem _ hmem
      · rw [hp.elsewhere (fun hoq => by rw [hoq] at ho; omega) hos]
        exact hmem
  | @declare s x v _ hs _ _ hd =>
    refine h.of_children hd.scopeCount fun t => ?_
    by_cases hts : t = s
    · subst hts
      rw [hd.bound hs]
    · rw [hd.elsewhere hts]
  | @define s x f _ hs _ hd =>
    refine h.of_children hd.scopeCount fun t => ?_
    by_cases hts : t = s
    · subst hts
      rw [hd.bound hs]
    · rw [hd.elsewhere hts]
  | body => exact h

/-- The root leads to every scope by way of children. -/
theorem Rooted.reachable (h : a.Rooted) {t : ScopeId} (ht : t.index < a.scopeCount) :
    Relation.ReflTransGen (fun o c => c ∈ (a.scopeAt o).children) root t := by
  obtain ⟨n⟩ := t
  induction n using Nat.strongRecOn with
  | _ n ih =>
    by_cases hr : (⟨n⟩ : ScopeId) = root
    · rw [hr]
    · obtain ⟨⟨m⟩, hm, hmem⟩ := h ⟨n⟩ hr ht
      exact (ih m hm (Nat.lt_trans hm ht)).tail hmem

/-- Each declaration is what its name means in the scope that owns it. -/
structure Registered (a : Arena) : Prop where
  variableBound : ∀ {v : VariableId}, v.index < a.declaredVariables.size →
    (a.variableAt v).owner.index < a.scopeCount ∧ (a.variableAt v).type ∈ variableTypes ∧
      (a.scopeAt (a.variableAt v).owner).variableBindings.get? (a.variableAt v).name = some v
  functionBound : ∀ {f : FunctionId}, f.index < a.declaredFunctions.size →
    (a.functionAt f).owner.index < a.scopeCount ∧
      (a.scopeAt (a.functionAt f).owner).functionBindings.get? (a.functionAt f).signature.name =
        some f
  functionOwner : ∀ {t x f}, (x, f) ∈ (a.scopeAt t).functionBindings.entries →
    f.index < a.declaredFunctions.size ∧ (a.functionAt f).owner = t

theorem Registered.fresh : Registered .fresh where
  variableBound h := absurd h (Nat.not_lt_zero _)
  functionBound h := absurd h (Nat.not_lt_zero _)
  functionOwner {t x f} h := by
    rw [scopeAt_fresh] at h
    exact absurd h List.not_mem_nil

namespace Registered

variable {o : Option ScopeId}

/-- What was declared before a change is bound as before. -/
theorem old_variable (h : a.Registered) (hf : Frame o a b) {v : VariableId}
    (hv : v.index < a.declaredVariables.size) :
    (b.variableAt v).owner.index < b.scopeCount ∧ (b.variableAt v).type ∈ variableTypes ∧
      (b.scopeAt (b.variableAt v).owner).variableBindings.get? (b.variableAt v).name = some v := by
  obtain ⟨howner, htype, hget⟩ := h.variableBound hv
  rw [hf.variableAt hv]
  exact ⟨Nat.lt_of_lt_of_le howner hf.scopeCount, htype, (hf.variableBindings howner).get? hget⟩

theorem old_function (h : a.Registered) (hf : Frame o a b) {f : FunctionId}
    (hlt : f.index < a.declaredFunctions.size) :
    (b.functionAt f).owner.index < b.scopeCount ∧
      (b.scopeAt (b.functionAt f).owner).functionBindings.get? (b.functionAt f).signature.name =
        some f := by
  obtain ⟨howner, hget⟩ := h.functionBound hlt
  rw [hf.functionAt hlt]
  exact ⟨Nat.lt_of_lt_of_le howner hf.scopeCount, (hf.functionBindings howner).get? hget⟩

theorem pushScope {s q : ScopeId} (h : a.Registered) (hp : ScopePushed a s q b) :
    b.Registered where
  variableBound hv := h.old_variable (.pushScope hp) (hp.declaredVariables ▸ hv)
  functionBound hf := h.old_function (.pushScope hp) (hp.declaredFunctions ▸ hf)
  functionOwner {t x f} hmem := by
    rw [hp.declaredFunctions, functionAt_congr hp.declaredFunctions]
    by_cases htq : t = q
    · rw [htq, hp.new] at hmem
      exact absurd hmem List.not_mem_nil
    · exact h.functionOwner ((hp.bindings htq).2 ▸ hmem)

theorem defineVariable {s : ScopeId} {x : Variable} {v : VariableId} (h : a.Registered)
    (hd : VariableDefined a s x v b) (hs : s.index < a.scopeCount) (hx : x.owner = s)
    (ht : x.type ∈ variableTypes) : b.Registered where
  variableBound {w} hw := by
    rw [hd.size] at hw
    rcases Nat.lt_succ_iff_lt_or_eq.1 hw with hw | hw
    · exact h.old_variable (.defineVariable hd) hw
    · obtain rfl : w = v := VariableId.ext (hw.trans hd.id.symm)
      rw [hd.stored, hx, hd.scopeCount, hd.bound hs]
      exact ⟨hs, ht, Bindings.get?_bind_self⟩
  functionBound hf := h.old_function (.defineVariable hd) (hd.declaredFunctions ▸ hf)
  functionOwner {t y f} hmem := by
    rw [hd.declaredFunctions, functionAt_congr hd.declaredFunctions]
    exact h.functionOwner (hd.functionBindings hs ▸ hmem)

theorem defineFunction {s : ScopeId} {x : Function} {f : FunctionId} (h : a.Registered)
    (hd : FunctionDefined a s x f b) (hs : s.index < a.scopeCount) (hx : x.owner = s) :
    b.Registered where
  variableBound hv := h.old_variable (.defineFunction hd) (hd.declaredVariables ▸ hv)
  functionBound {g} hg := by
    rw [hd.size] at hg
    rcases Nat.lt_succ_iff_lt_or_eq.1 hg with hg | hg
    · exact h.old_function (.defineFunction hd) hg
    · obtain rfl : g = f := FunctionId.ext (hg.trans hd.id.symm)
      rw [hd.stored, hx, hd.scopeCount, hd.bound hs]
      exact ⟨hs, Bindings.get?_bind_self⟩
  functionOwner {t y g} hmem := by
    rcases hd.mem_entries hs hmem with hmem | ⟨rfl, -, rfl⟩
    · obtain ⟨hlt, howner⟩ := h.functionOwner hmem
      rw [hd.size, (Frame.defineFunction hd).functionAt hlt]
      exact ⟨Nat.lt_succ_of_lt hlt, howner⟩
    · rw [hd.stored]
      exact ⟨hd.lt, hx⟩

theorem setBody {f : FunctionId} {block : Block} {span : Span} (h : a.Registered) :
    (a.setBody f block span).Registered := by
  have hhead : ∀ g, ((a.setBody f block span).functionAt g).owner = (a.functionAt g).owner ∧
      ((a.setBody f block span).functionAt g).signature = (a.functionAt g).signature := by
    intro g
    rw [functionAt_setBody]
    split <;> exact ⟨rfl, rfl⟩
  exact {
    variableBound := h.variableBound
    functionBound := fun {g} hg => by
      rw [(hhead g).1, (hhead g).2]
      exact h.functionBound (setBody_size ▸ hg)
    functionOwner := fun {t x g} hmem => by
      rw [setBody_size, (hhead g).1]
      exact h.functionOwner hmem }

theorem step (hs : a.Step b) (h : a.Registered) : b.Registered := by
  cases hs with
  | scope hp => exact h.pushScope hp
  | declare hs hx ht hd => exact h.defineVariable hd hs hx ht
  | define hs hx hd => exact h.defineFunction hd hs hx
  | body => exact h.setBody

end Registered

end ScriptSyntax.Arena
