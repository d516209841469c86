import Mathlib.Data.List.Chain
import ScriptSyntax.Proofs.Scope.Lookup
import ScriptSyntax.Proofs.Scope.Rebinding

/-!
What holds of every arena that is built up by its operations: scopes form a forest in which owners
are older, and each name that a scope binds stands for one declaration of that name.
-/

namespace ScriptSyntax

namespace Arena

/-- An operation that changes an arena. -/
inductive Change where
  | pushScope (owner : Option ScopeId)
  | defineVariable (s : ScopeId) (x : Variable) (replace : Bool)
  | defineFunction (s : ScopeId) (f : Function) (replace : Bool)
  | addFunction (f : Function)

/-- The scopes that a change names are among those that the arena has given out. -/
def Change.Valid (a : Arena) : Change → Prop
  | .pushScope owner => ∀ o ∈ owner, o.index < a.scopeCount
  | .defineVariable s _ _ | .defineFunction s _ _ => s.index < a.scopeCount
  | .addFunction _ => True

instance (a : Arena) : (c : Change) → Decidable (c.Valid a)
  | .pushScope owner => inferInstanceAs (Decidable (∀ o ∈ owner, o.index < a.scopeCount))
  | .defineVariable s _ _ | .defineFunction s _ _ => Nat.decLt s.index a.scopeCount
  | .addFunction _ => .isTrue trivial

/-- A definition that fails leaves the arena as it is. -/
def after (a : Arena) : Change → Arena
  | .pushScope owner => (a.pushScope owner).2
  | .defineVariable s x replace =>
    match a.defineVariable s x replace with
    | .ok (_, b) => b
    | .error _ => a
  | .defineFunction s f replace =>
    match a.defineFunction s f replace with
    | .ok (_, b) => b
    | .error _ => a
  | .addFunction f => (a.addFunction f).2

/-- The arenas that any number of changes lead to. -/
inductive Reachable : Arena → Prop
  | empty : Reachable {}
  | change {a : Arena} (c : Change) : Reachable a → c.Valid a → Reachable (a.after c)

/-- Owners are older than what they own and list it in order, a chain leads from a scope over its
owners to one without, and a scope binds existing declarations under their names, none of which is
bound anywhere else. -/
structure Consistent (a : Arena) : Prop where
  owner_older : ∀ {t o : ScopeId}, (a.scopeAt t).owner = some o → o < t
  mem_children : ∀ {t u : ScopeId}, u ∈ (a.scopeAt t).children ↔ (a.scopeAt u).owner = some t
  children_ascending : ∀ t, (a.scopeAt t).children.toList.Pairwise (· < ·)
  chain_head : ∀ s, (a.chain s).head? = some s
  chain_owner : ∀ s, (a.chain s).IsChain fun t u => (a.scopeAt t).owner = some u
  chain_descending : ∀ s, (a.chain s).Pairwise fun t u => u < t
  chain_end : ∀ s, ∀ t ∈ (a.chain s).getLast?, (a.scopeAt t).owner = none
  variable_named : ∀ {t x v}, (a.scopeAt t).variableBindings.get? x = some v →
    v.index < a.declaredVariables.size ∧ (a.variableAt v).name = x
  variable_once : ∀ {t u x y v}, (a.scopeAt t).variableBindings.get? x = some v →
    (a.scopeAt u).variableBindings.get? y = some v → t = u ∧ x = y
  mem_variables : ∀ {t v}, v ∈ (a.scopeAt t).variableBindings.ids ↔
    ∃ x, (a.scopeAt t).variableBindings.get? x = some v
  variables_ascending : ∀ t, (a.scopeAt t).variableBindings.ids.Pairwise (· < ·)
  function_named : ∀ {t x f}, (a.scopeAt t).functionBindings.get? x = some f →
    f.index < a.declaredFunctions.size ∧ (a.functionAt f).signature.name = x
  function_once : ∀ {t u x y f}, (a.scopeAt t).functionBindings.get? x = some f →
    (a.scopeAt u).functionBindings.get? y = some f → t = u ∧ x = y
  mem_functions : ∀ {t f}, f ∈ (a.scopeAt t).functionBindings.ids ↔
    ∃ x, (a.scopeAt t).functionBindings.get? x = some f
  functions_ascending : ∀ t, (a.scopeAt t).functionBindings.ids.Pairwise (· < ·)

variable {a b : Arena} {s t u : ScopeId}

section Forest

/-- Owners are older, and each scope lists the scopes that it owns. -/
structure Forest (a : Arena) : Prop where
  older : ∀ {t o : ScopeId}, (a.scopeAt t).owner = some o → o < t
  children : ∀ {t u : ScopeId}, u ∈ (a.scopeAt t).children ↔ (a.scopeAt u).owner = some t
  ascending : ∀ t, (a.scopeAt t).children.toList.Pairwise (· < ·)

theorem scopeAt_of_le (h : a.scopeCount ≤ t.index) : a.scopeAt t = {} := by
  rw [scopeAt, Array.getElem?_eq_none h]
  rfl

/-- A scope that owns or is owned is there. -/
theorem lt_of_owner {o : ScopeId} (h : (a.scopeAt t).owner = some o) : t.index < a.scopeCount := by
  by_contra hle
  rw [scopeAt_of_le (Nat.le_of_not_lt hle)] at h
  contradiction

theorem scopeAt_pushScope {owner : Option ScopeId} (h : ∀ o ∈ owner, o.index < a.scopeCount) :
    (a.pushScope owner).2.scopeAt t =
      if t.index = a.scopeCount then { owner }
      else if owner = some t then
        { a.scopeAt t with children := (a.scopeAt t).children.push ⟨a.scopeCount⟩ }
      else a.scopeAt t := by
  cases owner with
  | none =>
    simp only [pushScope, scopeAt, scopeCount, Array.getElem?_push]
    by_cases ht : t.index = a.scopes.size <;> simp [ht]
  | some o =>
    have hp : ScopePushed a o (a.pushScope (some o)).1 (a.pushScope (some o)).2 :=
      scopePushed rfl (h o rfl)
    have hid : (a.pushScope (some o)).1.index = a.scopeCount := hp.id
    by_cases ht : t.index = a.scopeCount
    · rw [if_pos ht, ← hp.new]
      exact congrArg _ (ScopeId.ext (ht.trans hid.symm))
    · rw [if_neg ht]
      have htq : t ≠ (a.pushScope (some o)).1 := fun heq => ht (by rw [heq, hid])
      by_cases hto : t = o
      · subst hto
        rw [if_pos rfl, hp.owner]
        rfl
      · rw [if_neg fun h => hto (Option.some.inj h).symm]
        exact hp.elsewhere htq hto

theorem Forest.empty : Forest {} where
  older h := nomatch h
  children := ⟨nofun, nofun⟩
  ascending _ := .nil

theorem Forest.congr (h : a.Forest) (howner : ∀ t, (b.scopeAt t).owner = (a.scopeAt t).owner)
    (hchildren : ∀ t, (b.scopeAt t).children = (a.scopeAt t).children) : b.Forest where
  older {t o} ht := h.older ((howner t).symm.trans ht)
  children {t u} := by rw [hchildren, howner, h.children]
  ascending t := by
    rw [hchildren]
    exact h.ascending t

theorem Forest.pushScope (h : a.Forest) {owner : Option ScopeId}
    (hvalid : ∀ o ∈ owner, o.index < a.scopeCount) : (a.pushScope owner).2.Forest := by
  have howner : ∀ t, ((a.pushScope owner).2.scopeAt t).owner =
      if t.index = a.scopeCount then owner else (a.scopeAt t).owner := by
    intro t
    rw [scopeAt_pushScope hvalid]
    split
    · rfl
    split <;> rfl
  -- The new scope has no children, and its owner lists it behind the others.
  have hchildren : ∀ t, ((a.pushScope owner).2.scopeAt t).children =
      if owner = some t then (a.scopeAt t).children.push ⟨a.scopeCount⟩
      else (a.scopeAt t).children := by
    intro t
    rw [scopeAt_pushScope hvalid]
    split
    · next ht =>
      have hne : owner ≠ some t := fun ho => Nat.lt_irrefl _ (ht ▸ hvalid t ho)
      rw [if_neg hne, scopeAt_of_le (Nat.le_of_eq ht.symm)]
    split <;> rfl
  refine ⟨fun {t o} ht => ?_, fun {t u} => ?_, fun t => ?_⟩
  · rw [howner] at ht
    split at ht
    · next hnew =>
      have hlt := hvalid o ht
      rw [← hnew] at hlt
      exact hlt
    · exact h.older ht
  · rw [hchildren, howner]
    by_cases hu : u.index = a.scopeCount
    · -- Before, the new scope was neither owned nor listed.
      have hold : (a.scopeAt u).owner = none := by rw [scopeAt_of_le (Nat.le_of_eq hu.symm)]
      have hlisted : u ∉ (a.scopeAt t).children := by
        rw [h.children, hold]
        exact nofun
      rw [if_pos hu]
      split
      · next ho => exact iff_of_true (ScopeId.ext hu ▸ Array.mem_push_self) ho
      · next ho => exact iff_of_false hlisted ho
    · rw [if_neg hu, ← h.children]
      split
      · have hne : u ≠ ⟨a.scopeCount⟩ := fun heq => hu (congrArg ScopeId.index heq)
        rw [Array.mem_push, or_iff_left hne]
      · exact Iff.rfl
  · rw [hchildren]
    split
    · rw [Array.toList_push]
      refine List.pairwise_append.2 ⟨h.ascending t, List.pairwise_singleton _ _, ?_⟩
      intro v hv w hw
      rw [List.mem_singleton.1 hw]
      exact lt_of_owner (h.children.1 (Array.mem_toList_iff.1 hv))
    · exact h.ascending t

/-- What holds of a scope without an owner, and is passed on from an owner, holds of every chain. -/
theorem Forest.chain_rule (h : a.Forest) {P : ScopeId → List ScopeId → Prop}
    (hend : ∀ {s}, (a.scopeAt s).owner = none → P s [s])
    (hcons : ∀ {s o}, (a.scopeAt s).owner = some o → P o (a.chain o) → P s (s :: a.chain o))
    (s : ScopeId) : P s (a.chain s) := by
  induction s using chain.induct (a := a) with
  | case1 s o ho hlt ih =>
    rw [chain, ho]
    simp only [hlt, ↓reduceDIte]
    exact hcons ho ih
  | case2 s o ho hlt => exact absurd (h.older ho) hlt
  | case3 s ho =>
    rw [chain, ho]
    exact hend ho

theorem Forest.chain_head (h : a.Forest) (s : ScopeId) : (a.chain s).head? = some s :=
  h.chain_rule (P := fun s l => l.head? = some s) (fun _ => rfl) (fun _ _ => rfl) s

theorem Forest.chain_owner (h : a.Forest) (s : ScopeId) :
    (a.chain s).IsChain fun t u => (a.scopeAt t).owner = some u := by
  refine h.chain_rule (P := fun _ l => l.IsChain _) (fun _ => .singleton _) ?_ s
  intro s o ho hchain
  refine List.isChain_cons.2 ⟨fun u hu => ?_, hchain⟩
  rw [h.chain_head o] at hu
  exact Option.some.inj hu ▸ ho

theorem Forest.chain_descending (h : a.Forest) (s : ScopeId) :
    (a.chain s).Pairwise fun t u => u < t := by
  refine h.chain_rule (P := fun _ l => l.Pairwise _) (fun _ => List.pairwise_singleton _ _) ?_ s
  intro s o ho hchain
  refine List.pairwise_cons.2 ⟨fun u hu => ?_, hchain⟩
  exact Nat.lt_of_le_of_lt (index_le_of_mem_chain hu) (h.older ho)

theorem Forest.chain_end (h : a.Forest) (s : ScopeId) :
    ∀ t ∈ (a.chain s).getLast?, (a.scopeAt t).owner = none := by
  refine h.chain_rule (P := fun _ l => ∀ t ∈ l.getLast?, (a.scopeAt t).owner = none) ?_ ?_ s
  · rintro s hs _ ⟨⟩
    exact hs
  · intro s o ho hlast t ht
    obtain ⟨us, hus⟩ := List.head?_eq_some_iff.1 (h.chain_head o)
    rw [hus, List.getLast?_cons_cons, ← hus] at ht
    exact hlast t ht

end Forest

section Changes

/-- What every operation keeps. -/
structure Kept (a : Arena) : Prop where
  forest : a.Forest
  boundVariables : Allotted VariableId.index a.declaredVariables.size
    (fun v => (a.variableAt v).name) fun t => (a.scopeAt t).variableBindings
  boundFunctions : Allotted FunctionId.index a.declaredFunctions.size
    (fun f => (a.functionAt f).signature.name) fun t => (a.scopeAt t).functionBindings

theorem Kept.empty : Kept {} := ⟨.empty, .empty fun _ => rfl, .empty fun _ => rfl⟩

theorem Kept.pushScope (h : a.Kept) {owner : Option ScopeId}
    (hvalid : ∀ o ∈ owner, o.index < a.scopeCount) : (a.pushScope owner).2.Kept := by
  have hbindings : ∀ t, ((a.pushScope owner).2.scopeAt t).variableBindings =
        (a.scopeAt t).variableBindings ∧
      ((a.pushScope owner).2.scopeAt t).functionBindings = (a.scopeAt t).functionBindings := by
    intro t
    rw [scopeAt_pushScope hvalid]
    split
    · next ht =>
      rw [scopeAt_of_le (Nat.le_of_eq ht.symm)]
      exact ⟨rfl, rfl⟩
    split <;> exact ⟨rfl, rfl⟩
  have hdeclared : (a.pushScope owner).2.declaredVariables = a.declaredVariables ∧
      (a.pushScope owner).2.declaredFunctions = a.declaredFunctions := by
    cases owner <;> exact ⟨rfl, rfl⟩
  refine ⟨h.forest.pushScope hvalid, h.boundVariables.mono ?_ ?_ ?_,
    h.boundFunctions.mono ?_ ?_ ?_⟩
  · rw [hdeclared.1]
  · intro v _
    rw [variableAt_congr hdeclared.1]
  · exact fun t => (hbindings t).1
  · rw [hdeclared.2]
  · intro f _
    rw [functionAt_congr hdeclared.2]
  · exact fun t => (hbindings t).2

theorem scopeAt_modified {change : Scope → Scope} (hs : s.index < a.scopeCount) :
    (a.modifyScope s change).scopeAt t = if t = s then change (a.scopeAt t) else a.scopeAt t := by
  rw [scopeAt_modifyScope]
  by_cases ht : t = s
  · rw [if_pos ⟨ht, ht ▸ hs⟩, if_pos ht]
  · rw [if_neg fun h => ht h.1, if_neg ht]

/-- A field of a scope that a change of `s` leaves alone. -/
theorem field_modified {α : Type} (field : Scope → α) {change : Scope → Scope}
    (hs : s.index < a.scopeCount) (h : ∀ r, field (change r) = field r) (t : ScopeId) :
    field ((a.modifyScope s change).scopeAt t) = field (a.scopeAt t) := by
  rw [scopeAt_modified hs]
  split
  · exact h _
  · rfl

theorem Kept.defineVariable (h : a.Kept) {x : Variable} {replace : Bool} {v : VariableId}
    (hs : s.index < a.scopeCount) (hx : a.defineVariable s x replace = .ok (v, b)) : b.Kept := by
  obtain ⟨-, rfl, rfl⟩ := defineVariable_ok.1 hx
  refine ⟨h.forest.congr ?_ ?_, ?_, h.boundFunctions.mono (Nat.le_refl _) (fun _ _ => rfl) ?_⟩
  · exact field_modified Scope.owner hs fun _ => rfl
  · exact field_modified Scope.children hs fun _ => rfl
  · simp only [Array.size_push]
    refine h.boundVariables.bind (s := s) (x := x.name) (v := ⟨a.declaredVariables.size⟩) rfl
      ?_ ?_ ?_ ?_
    · rw [variableAt_of_push rfl, if_pos rfl]
    · intro w hw
      rw [variableAt_of_push rfl, if_neg (Nat.ne_of_lt hw)]
    · exact congrArg Scope.variableBindings ((scopeAt_modified hs).trans (if_pos rfl))
    · exact fun t ht => congrArg Scope.variableBindings ((scopeAt_modified hs).trans (if_neg ht))
  · exact field_modified Scope.functionBindings hs fun _ => rfl

theorem Kept.defineFunction (h : a.Kept) {x : Function} {replace : Bool} {f : FunctionId}
    (hs : s.index < a.scopeCount) (hx : a.defineFunction s x replace = .ok (f, b)) : b.Kept := by
  obtain ⟨-, rfl, rfl⟩ := defineFunction_ok.1 hx
  refine ⟨h.forest.congr ?_ ?_, h.boundVariables.mono (Nat.le_refl _) (fun _ _ => rfl) ?_, ?_⟩
  · exact field_modified Scope.owner hs fun _ => rfl
  · exact field_modified Scope.children hs fun _ => rfl
  · exact field_modified Scope.variableBindings hs fun _ => rfl
  · simp only [Array.size_push]
    refine h.boundFunctions.bind (s := s) (x := x.signature.name)
      (v := ⟨a.declaredFunctions.size⟩) rfl ?_ ?_ ?_ ?_
    · rw [functionAt_of_push rfl, if_pos rfl]
    · intro g hg
      rw [functionAt_of_push rfl, if_neg (Nat.ne_of_lt hg)]
    · exact congrArg Scope.functionBindings ((scopeAt_modified hs).trans (if_pos rfl))
    · exact fun t ht => congrArg Scope.functionBindings ((scopeAt_modified hs).trans (if_neg ht))

theorem Kept.addFunction (h : a.Kept) (x : Function) : (a.addFunction x).2.Kept where
  forest := h.forest.congr (fun _ => rfl) fun _ => rfl
  boundVariables := h.boundVariables
  boundFunctions := by
    refine h.boundFunctions.mono ?_ ?_ fun _ => rfl
    · simp [Arena.addFunction]
    · intro f hf
      rw [functionAt_of_push rfl, if_neg (Nat.ne_of_lt hf)]

theorem Kept.after (h : a.Kept) {c : Change} (hc : c.Valid a) : (a.after c).Kept := by
  cases c with
  | pushScope owner => exact h.pushScope hc
  | defineVariable s x replace =>
    unfold Arena.after
    dsimp only
    split
    · next hx => exact h.defineVariable hc hx
    · exact h
  | defineFunction s x replace =>
    unfold Arena.after
    dsimp only
    split
    · next hx => exact h.defineFunction hc hx
    · exact h
  | addFunction x => exact h.addFunction x

theorem Reachable.kept (h : Reachable a) : a.Kept := by
  induction h with
  | empty => exact .empty
  | change c _ hc ih => exact ih.after hc

theorem Kept.consistent (h : a.Kept) : a.Consistent where
  owner_older := h.forest.older
  mem_children := h.forest.children
  children_ascending := h.forest.ascending
  chain_head := h.forest.chain_head
  chain_owner := h.forest.chain_owner
  chain_descending := h.forest.chain_descending
  chain_end := h.forest.chain_end
  variable_named := h.boundVariables.named
  variable_once := h.boundVariables.unique
  mem_variables := (h.boundVariables.lists _).mem_ids
  variables_ascending t := (h.boundVariables.lists t).ids_ascending
  function_named := h.boundFunctions.named
  function_once := h.boundFunctions.unique
  mem_functions := (h.boundFunctions.lists _).mem_ids
  functions_ascending t := (h.boundFunctions.lists t).ids_ascending

/-- Every arena that its operations lead to is consistent. -/
theorem reachable_consistent (h : Reachable a) : a.Consistent := h.kept.consistent

/-- A name is taken, refused once and then taken over, and a function is added that no scope
binds. -/
theorem reachable_consistent_replaced :
    ∃ a, Reachable a ∧ a.Consistent ∧ (a.scopeAt ⟨0⟩).children = #[⟨1⟩, ⟨2⟩] ∧
      a.chain ⟨2⟩ = [⟨2⟩, ⟨0⟩] ∧ (a.scopeAt ⟨0⟩).variableBindings.ids = [⟨1⟩, ⟨2⟩] ∧
      (a.scopeAt ⟨0⟩).variableBindings.get? "x" = some ⟨2⟩ ∧ a.declaredVariables.size = 3 ∧
      a.declaredFunctions.size = 1 := by
  have h := Reachable.empty.change (.pushScope none) (by decide)
  have h := h.change (.pushScope (some ⟨0⟩)) (by decide)
  have h := h.change (.defineVariable ⟨0⟩ ⟨.int, "x", ⟨0⟩, .unknown⟩ false) (by decide)
  have h := h.change (.defineVariable ⟨0⟩ ⟨.int, "y", ⟨0⟩, .unknown⟩ false) (by decide)
  have h := h.change (.defineVariable ⟨0⟩ ⟨.string, "x", ⟨0⟩, .unknown⟩ false) (by decide)
  have h := h.change (.defineVariable ⟨0⟩ ⟨.string, "x", ⟨0⟩, .unknown⟩ true) (by decide)
  have h := h.change (.pushScope (some ⟨0⟩)) (by decide)
  have h := h.change (.addFunction default) (by decide)
  exact ⟨_, h, reachable_consistent h, by decide +kernel⟩

end Changes

end Arena

end ScriptSyntax
