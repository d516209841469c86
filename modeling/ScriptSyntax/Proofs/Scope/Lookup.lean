import ScriptSyntax.Proofs.Scope.Growth

/-!
Looking names up in an arena that has grown since: the owners are the same, and what was declared
later can be told apart by its handle.
-/

namespace ScriptSyntax

/-- A name means the same as before if the bindings of before are kept and later ones are not. -/
theorem Bindings.Extended.get?_filter {Id : Type} {index : Id → Nat} {n : Nat} {b c : Bindings Id}
    {keep : Id → Bool} {name : String} (h : b.Extended index n c)
    (hold : ∀ x, (name, x) ∈ b.entries → keep x = true)
    (hnew : ∀ x, (name, x) ∈ c.entries → n ≤ index x → keep x = false) :
    (c.get? name).filter keep = b.get? name := by
  obtain ⟨es, hc, hes⟩ := h
  have hget : c.get? name = (b.get? name).or (es.lookup name) := by
    rw [Bindings.get?, hc, List.lookup_append]
    rfl
  -- What was bound before stands in front and is kept; what is found behind it is not.
  rw [hget]
  cases hb : b.get? name with
  | some x => simp [hold x (mem_of_get? hb)]
  | none =>
    cases he : es.lookup name with
    | none => rfl
    | some x =>
      have hx : (name, x) ∈ es := mem_of_get? (b := ⟨es⟩) he
      have := hnew x (hc ▸ List.mem_append_right _ hx) (hes _ hx)
      simp [this]

theorem findSome?_congr {α β : Type} {f g : α → Option β} {l : List α}
    (h : ∀ x ∈ l, f x = g x) : l.findSome? f = l.findSome? g := by
  induction l with
  | nil => rfl
  | cons x l ih =>
    rw [List.findSome?_cons, List.findSome?_cons, h x List.mem_cons_self,
      ih fun y hy => h y (List.mem_cons_of_mem x hy)]

namespace Arena

variable {o : Option ScopeId} {a b c : Arena} {s t : ScopeId}

theorem index_le_of_mem_chain (h : t ∈ a.chain s) : t.index ≤ s.index := by
  induction s using chain.induct (a := a) with
  | case1 s o ho hlt ih =>
    rw [chain, ho] at h
    simp only [hlt, ↓reduceDIte, List.mem_cons] at h
    rcases h with rfl | h
    · exact Nat.le_refl _
    · exact Nat.le_of_lt (Nat.lt_of_le_of_lt (ih h) hlt)
  | case2 s o ho hlt =>
    rw [chain, ho] at h
    simp only [hlt, ↓reduceDIte, List.mem_singleton] at h
    exact h ▸ Nat.le_refl _
  | case3 s ho =>
    rw [chain, ho, List.mem_singleton] at h
    exact h ▸ Nat.le_refl _

theorem chain_congr
    (h : ∀ {t : ScopeId}, t.index ≤ s.index → (b.scopeAt t).owner = (a.scopeAt t).owner) :
    b.chain s = a.chain s := by
  induction s using chain.induct (a := a) with
  | case1 s o ho hlt ih =>
    rw [chain, h (Nat.le_refl _), chain, ho]
    simp only [hlt, ↓reduceDIte, List.cons.injEq, true_and]
    exact ih fun ht => h (Nat.le_trans ht (Nat.le_of_lt hlt))
  | case2 s o ho hlt =>
    rw [chain, h (Nat.le_refl _), chain, ho]
    simp only [hlt, ↓reduceDIte]
  | case3 s ho => rw [chain, h (Nat.le_refl _), chain, ho]

/-- What is left of an arena in one that came of it. A function declared in between may have been
given its body; its head and its parameters are the same. -/
structure Grows (a b : Arena) : Prop where
  scopeCount : a.scopeCount ≤ b.scopeCount
  variableCount : a.declaredVariables.size ≤ b.declaredVariables.size
  functionCount : a.declaredFunctions.size ≤ b.declaredFunctions.size
  variableAt : ∀ {v}, v.index < a.declaredVariables.size → b.variableAt v = a.variableAt v
  signature : ∀ {f}, f.index < a.declaredFunctions.size →
    (b.functionAt f).signature = (a.functionAt f).signature
  parameterScope : ∀ {f}, f.index < a.declaredFunctions.size →
    (b.functionAt f).parameterScope = (a.functionAt f).parameterScope
  start : ∀ {f}, f.index < a.declaredFunctions.size →
    (b.functionAt f).span.start = (a.functionAt f).span.start
  owner : ∀ {t}, t.index < a.scopeCount → (b.scopeAt t).owner = (a.scopeAt t).owner
  variableBindings : ∀ {t}, t.index < a.scopeCount →
    (a.scopeAt t).variableBindings.Extended VariableId.index a.declaredVariables.size
      (b.scopeAt t).variableBindings
  functionBindings : ∀ {t}, t.index < a.scopeCount →
    (a.scopeAt t).functionBindings.Extended FunctionId.index a.declaredFunctions.size
      (b.scopeAt t).functionBindings
  parameters : ∀ {f}, f.index < a.declaredFunctions.size →
    (b.scopeAt (a.functionAt f).parameterScope).variableBindings =
      (a.scopeAt (a.functionAt f).parameterScope).variableBindings

theorem Frame.grows (h : Frame o a b) (hc : a.Coherent)
    (ho : ∀ f : FunctionId, f.index < a.declaredFunctions.size →
      some (a.functionAt f).parameterScope ≠ o) : a.Grows b :=
  { h with
    signature := fun hf => by rw [h.functionAt hf]
    parameterScope := fun hf => by rw [h.functionAt hf]
    start := fun hf => by rw [h.functionAt hf]
    parameters := fun {f} hf => (h.elsewhere (hc.parameterScope hf) (ho f hf)).1 }

namespace Grows

theorem refl (hc : a.Coherent) : a.Grows a := (Frame.refl none a).grows hc nofun

theorem trans (h : a.Grows b) (h' : b.Grows c) : a.Grows c where
  scopeCount := Nat.le_trans h.scopeCount h'.scopeCount
  variableCount := Nat.le_trans h.variableCount h'.variableCount
  functionCount := Nat.le_trans h.functionCount h'.functionCount
  variableAt hv :=
    (h'.variableAt (Nat.lt_of_lt_of_le hv h.variableCount)).trans (h.variableAt hv)
  signature hf := (h'.signature (Nat.lt_of_lt_of_le hf h.functionCount)).trans (h.signature hf)
  parameterScope hf :=
    (h'.parameterScope (Nat.lt_of_lt_of_le hf h.functionCount)).trans (h.parameterScope hf)
  start hf := (h'.start (Nat.lt_of_lt_of_le hf h.functionCount)).trans (h.start hf)
  owner ht := (h'.owner (Nat.lt_of_lt_of_le ht h.scopeCount)).trans (h.owner ht)
  variableBindings ht := (h.variableBindings ht).trans h.variableCount
    (h'.variableBindings (Nat.lt_of_lt_of_le ht h.scopeCount))
  functionBindings ht := (h.functionBindings ht).trans h.functionCount
    (h'.functionBindings (Nat.lt_of_lt_of_le ht h.scopeCount))
  parameters {f} hf := by
    have hp := h'.parameters (Nat.lt_of_lt_of_le hf h.functionCount)
    rw [h.parameterScope hf] at hp
    exact hp.trans (h.parameters hf)

/-- A function is given its body where its declaration began. -/
theorem setBody {f : FunctionId} {body : Block} {span : Span} (hc : a.Coherent)
    (hs : span.start = (a.functionAt f).span.start) : a.Grows (a.setBody f body span) := by
  have hhead : ∀ g, ((a.setBody f body span).functionAt g).signature = (a.functionAt g).signature ∧
      ((a.setBody f body span).functionAt g).parameterScope = (a.functionAt g).parameterScope ∧
      ((a.setBody f body span).functionAt g).span.start = (a.functionAt g).span.start := by
    intro g
    rw [functionAt_setBody]
    split
    · next hg => rw [hg.1]; exact ⟨rfl, rfl, hs⟩
    · exact ⟨rfl, rfl, rfl⟩
  have h := refl hc
  exact {
    scopeCount := Nat.le_refl _
    variableCount := Nat.le_refl _
    functionCount := Nat.le_of_eq setBody_size.symm
    variableAt := fun _ => rfl
    signature := fun _ => (hhead _).1
    parameterScope := fun _ => (hhead _).2.1
    start := fun _ => (hhead _).2.2
    owner := fun _ => rfl
    variableBindings := h.variableBindings
    functionBindings := h.functionBindings
    parameters := fun _ => rfl }

theorem addFunction (hc : a.Coherent) (x : Function) : a.Grows (a.addFunction x).2 := by
  have hold : ∀ {f : FunctionId}, f.index < a.declaredFunctions.size →
      (a.addFunction x).2.functionAt f = a.functionAt f := fun hf =>
    (functionAt_of_push (x := x) rfl).trans (if_neg (Nat.ne_of_lt hf))
  have h := refl hc
  exact {
    scopeCount := Nat.le_refl _
    variableCount := Nat.le_refl _
    functionCount := by simp [Arena.addFunction]
    variableAt := fun _ => rfl
    signature := fun hf => by rw [hold hf]
    parameterScope := fun hf => by rw [hold hf]
    start := fun hf => by rw [hold hf]
    owner := fun _ => rfl
    variableBindings := h.variableBindings
    functionBindings := h.functionBindings
    parameters := fun _ => rfl }

theorem chain (h : a.Grows b) (hs : s.index < a.scopeCount) : b.chain s = a.chain s :=
  chain_congr fun ht => h.owner (Nat.lt_of_le_of_lt ht hs)

/-- A variable is found as if those declared since were not there. -/
theorem lookupVariable? (h : a.Grows b) (hs : s.index < a.scopeCount) {name : String}
    {visible : VariableId → Bool}
    (hold : ∀ {t x}, (name, x) ∈ (a.scopeAt t).variableBindings.entries → visible x = true)
    (hnew : ∀ {t x}, t.index < a.scopeCount → (name, x) ∈ (b.scopeAt t).variableBindings.entries →
      a.declaredVariables.size ≤ x.index → visible x = false) :
    (b.chain s).findSome? (fun t => ((b.scopeAt t).variableBindings.get? name).filter visible) =
      a.lookupVariable? s name := by
  rw [h.chain hs, Arena.lookupVariable?]
  refine findSome?_congr fun t ht => ?_
  have ht := Nat.lt_of_le_of_lt (index_le_of_mem_chain ht) hs
  exact (h.variableBindings ht).get?_filter (fun _ => hold) fun _ => hnew ht

theorem lookupFunction? (h : a.Grows b) (hs : s.index < a.scopeCount) {name : String}
    {visible : FunctionId → Bool}
    (hold : ∀ {t f}, (name, f) ∈ (a.scopeAt t).functionBindings.entries → visible f = true)
    (hnew : ∀ {t f}, t.index < a.scopeCount → (name, f) ∈ (b.scopeAt t).functionBindings.entries →
      a.declaredFunctions.size ≤ f.index → visible f = false) :
    (b.chain s).findSome? (fun t => ((b.scopeAt t).functionBindings.get? name).filter visible) =
      a.lookupFunction? s name := by
  rw [h.chain hs, Arena.lookupFunction?]
  refine findSome?_congr fun t ht => ?_
  have ht := Nat.lt_of_le_of_lt (index_le_of_mem_chain ht) hs
  exact (h.functionBindings ht).get?_filter (fun _ => hold) fun _ => hnew ht

end Grows

end Arena

end ScriptSyntax
