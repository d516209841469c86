import ScriptSyntax.Proofs.Scope.Change

/-!
How an arena grows while a text is read. Reading in one scope leaves all that was declared before
it as it was, and adds only newer handles to the names of that scope.
-/

namespace ScriptSyntax

/-- More bindings behind those of before, all of handles from `n` on. -/
def Bindings.Extended {Id : Type} (index : Id → Nat) (n : Nat) (b c : Bindings Id) : Prop :=
  ∃ es, c.entries = b.entries ++ es ∧ ∀ e ∈ es, n ≤ index e.2

namespace Bindings.Extended

variable {Id : Type} {index : Id → Nat} {m n : Nat} {b c d : Bindings Id}

theorem refl (index : Id → Nat) (n : Nat) (b : Bindings Id) : b.Extended index n b :=
  ⟨[], by simp, by simp⟩

theorem trans (hmn : m ≤ n) (h : b.Extended index m c) (h' : c.Extended index n d) :
    b.Extended index m d := by
  obtain ⟨es, hc, hes⟩ := h
  obtain ⟨fs, hd, hfs⟩ := h'
  refine ⟨es ++ fs, by rw [hd, hc, List.append_assoc], fun e he => ?_⟩
  rcases List.mem_append.1 he with he | he
  · exact hes e he
  · exact Nat.le_trans hmn (hfs e he)

theorem get? {name : String} {id : Id} (h : b.Extended index n c) (hb : b.get? name = some id) :
    c.get? name = some id := by
  obtain ⟨es, hc, -⟩ := h
  unfold Bindings.get? at hb ⊢
  rw [hc, List.lookup_append, hb]
  rfl

theorem bind {name : String} {id : Id} (h : b.get? name = none) (hn : n ≤ index id) :
    b.Extended index n (b.bind name id) := by
  refine ⟨[(name, id)], entries_bind h, fun e he => ?_⟩
  rw [List.mem_singleton.1 he]
  exact hn

end Bindings.Extended

namespace Arena

/-- Each name is bound to a declaration of that name in that scope. -/
structure Coherent (a : Arena) : Prop where
  variableBindings : ∀ {t x v}, (x, v) ∈ (a.scopeAt t).variableBindings.entries →
    v.index < a.declaredVariables.size ∧ (a.variableAt v).name = x ∧ (a.variableAt v).owner = t
  functionBindings : ∀ {t x f}, (x, f) ∈ (a.scopeAt t).functionBindings.entries →
    f.index < a.declaredFunctions.size ∧ (a.functionAt f).signature.name = x
  parameterScope : ∀ {f : FunctionId}, f.index < a.declaredFunctions.size →
    (a.functionAt f).parameterScope.index < a.scopeCount

/-- What is kept by reading that declares names in the scope `o` of those that exist, if in any. -/
structure Frame (o : Option ScopeId) (a b : Arena) : Prop where
  scopeCount : a.scopeCount ≤ b.scopeCount
  variableCount : a.declaredVariables.size ≤ b.declaredVariables.size
  functionCount : a.declaredFunctions.size ≤ b.declaredFunctions.size
  variableAt : ∀ {v}, v.index < a.declaredVariables.size → b.variableAt v = a.variableAt v
  functionAt : ∀ {f}, f.index < a.declaredFunctions.size → b.functionAt f = a.functionAt f
  owner : ∀ {t}, t.index < a.scopeCount → (b.scopeAt t).owner = (a.scopeAt t).owner
  variableBindings : ∀ {t}, t.index < a.scopeCount →
    (a.scopeAt t).variableBindings.Extended VariableId.index a.declaredVariables.size
      (b.scopeAt t).variableBindings
  functionBindings : ∀ {t}, t.index < a.scopeCount →
    (a.scopeAt t).functionBindings.Extended FunctionId.index a.declaredFunctions.size
      (b.scopeAt t).functionBindings
  elsewhere : ∀ {t}, t.index < a.scopeCount → some t ≠ o →
    (b.scopeAt t).variableBindings = (a.scopeAt t).variableBindings ∧
      (b.scopeAt t).functionBindings = (a.scopeAt t).functionBindings

variable {o : Option ScopeId} {a b c : Arena} {s q : ScopeId}

namespace Frame

theorem refl (o : Option ScopeId) (a : Arena) : Frame o a a where
  scopeCount := Nat.le_refl _
  variableCount := Nat.le_refl _
  functionCount := Nat.le_refl _
  variableAt _ := rfl
  functionAt _ := rfl
  owner _ := rfl
  variableBindings _ := .refl ..
  functionBindings _ := .refl ..
  elsewhere _ _ := ⟨rfl, rfl⟩

/-- What comes behind may also declare in a scope that was not there at first. -/
theorem compose {o' : Option ScopeId} (h : Frame o a b) (h' : Frame o' b c)
    (ho : ∀ {t : ScopeId}, t.index < a.scopeCount → some t ≠ o → some t ≠ o') : Frame o a c where
  scopeCount := Nat.le_trans h.scopeCount h'.scopeCount
  variableCount := Nat.le_trans h.variableCount h'.variableCount
  functionCount := Nat.le_trans h.functionCount h'.functionCount
  variableAt hv :=
    (h'.variableAt (Nat.lt_of_lt_of_le hv h.variableCount)).trans (h.variableAt hv)
  functionAt hf :=
    (h'.functionAt (Nat.lt_of_lt_of_le hf h.functionCount)).trans (h.functionAt hf)
  owner ht := (h'.owner (Nat.lt_of_lt_of_le ht h.scopeCount)).trans (h.owner ht)
  variableBindings ht := (h.variableBindings ht).trans h.variableCount
    (h'.variableBindings (Nat.lt_of_lt_of_le ht h.scopeCount))
  functionBindings ht := (h.functionBindings ht).trans h.functionCount
    (h'.functionBindings (Nat.lt_of_lt_of_le ht h.scopeCount))
  elsewhere ht hn :=
    have hb := h.elsewhere ht hn
    have hc := h'.elsewhere (Nat.lt_of_lt_of_le ht h.scopeCount) (ho ht hn)
    ⟨hc.1.trans hb.1, hc.2.trans hb.2⟩

theorem trans (h : Frame o a b) (h' : Frame o b c) : Frame o a c := h.compose h' fun _ hn => hn

/-- What declares in no existing scope also declares in no other than `o`. -/
theorem weaken (h : Frame none a b) (o : Option ScopeId) : Frame o a b :=
  { h with elsewhere := fun ht _ => h.elsewhere ht nofun }

/-- A scope that was not there at first is closed again. -/
theorem close (h : Frame o a b) (h' : Frame (some q) b c) (hq : a.scopeCount ≤ q.index) :
    Frame o a c :=
  -- None of the scopes of before is `q`.
  h.compose h' fun ht _ ht' => by cases ht'; omega

theorem pushScope (h : ScopePushed a s q b) : Frame none a b := by
  have hs : ∀ {t : ScopeId}, t.index < a.scopeCount →
      (b.scopeAt t).owner = (a.scopeAt t).owner ∧
      (b.scopeAt t).variableBindings = (a.scopeAt t).variableBindings ∧
      (b.scopeAt t).functionBindings = (a.scopeAt t).functionBindings := by
    intro t ht
    by_cases hts : t = s
    · rw [hts, h.owner]
      exact ⟨rfl, rfl, rfl⟩
    · rw [h.elsewhere (h.ne_new ht) hts]
      exact ⟨rfl, rfl, rfl⟩
  exact {
    scopeCount := by rw [h.scopeCount]; omega
    variableCount := Nat.le_of_eq (by rw [h.declaredVariables])
    functionCount := Nat.le_of_eq (by rw [h.declaredFunctions])
    variableAt := fun _ => variableAt_congr h.declaredVariables
    functionAt := fun _ => functionAt_congr h.declaredFunctions
    owner := fun ht => (hs ht).1
    variableBindings := fun ht => by rw [(hs ht).2.1]; exact .refl ..
    functionBindings := fun ht => by rw [(hs ht).2.2]; exact .refl ..
    elsewhere := fun ht _ => (hs ht).2 }

theorem defineVariable {x : Variable} {v : VariableId} (h : VariableDefined a s x v b) :
    Frame (some s) a b := by
  have hs : ∀ {t : ScopeId}, t.index < a.scopeCount →
      (b.scopeAt t).owner = (a.scopeAt t).owner ∧
      (a.scopeAt t).variableBindings.Extended VariableId.index a.declaredVariables.size
        (b.scopeAt t).variableBindings ∧
      (b.scopeAt t).functionBindings = (a.scopeAt t).functionBindings := by
    intro t ht
    by_cases hts : t = s
    · subst hts
      rw [h.bound ht]
      exact ⟨rfl, .bind h.free (Nat.le_of_eq h.id.symm), rfl⟩
    · rw [h.elsewhere hts]
      exact ⟨rfl, .refl .., rfl⟩
  exact {
    scopeCount := Nat.le_of_eq h.scopeCount.symm
    variableCount := h.size ▸ Nat.le_succ _
    functionCount := Nat.le_of_eq (by rw [h.declaredFunctions])
    variableAt := fun hv =>
      (variableAt_of_push h.declaredVariables).trans (if_neg (Nat.ne_of_lt hv))
    functionAt := fun _ => functionAt_congr h.declaredFunctions
    owner := fun ht => (hs ht).1
    variableBindings := fun ht => (hs ht).2.1
    functionBindings := fun ht => by rw [(hs ht).2.2]; exact .refl ..
    elsewhere := fun _ hn => by rw [h.elsewhere fun hts => hn (hts ▸ rfl)]; exact ⟨rfl, rfl⟩ }

theorem defineFunction {x : Function} {f : FunctionId} (h : FunctionDefined a s x f b) :
    Frame (some s) a b := by
  have hs : ∀ {t : ScopeId}, t.index < a.scopeCount →
      (b.scopeAt t).owner = (a.scopeAt t).owner ∧
      (b.scopeAt t).variableBindings = (a.scopeAt t).variableBindings ∧
      (a.scopeAt t).functionBindings.Extended FunctionId.index a.declaredFunctions.size
        (b.scopeAt t).functionBindings := by
    intro t ht
    by_cases hts : t = s
    · subst hts
      rw [h.bound ht]
      exact ⟨rfl, rfl, .bind h.free (Nat.le_of_eq h.id.symm)⟩
    · rw [h.elsewhere hts]
      exact ⟨rfl, rfl, .refl ..⟩
  exact {
    scopeCount := Nat.le_of_eq h.scopeCount.symm
    variableCount := Nat.le_of_eq (by rw [h.declaredVariables])
    functionCount := h.size ▸ Nat.le_succ _
    variableAt := fun _ => variableAt_congr h.declaredVariables
    functionAt := fun hf =>
      (functionAt_of_push h.declaredFunctions).trans (if_neg (Nat.ne_of_lt hf))
    owner := fun ht => (hs ht).1
    variableBindings := fun ht => by rw [(hs ht).2.1]; exact .refl ..
    functionBindings := fun ht => (hs ht).2.2
    elsewhere := fun _ hn => by rw [h.elsewhere fun hts => hn (hts ▸ rfl)]; exact ⟨rfl, rfl⟩ }

theorem addFunction (o : Option ScopeId) (a : Arena) (x : Function) :
    Frame o a (a.addFunction x).2 :=
  { Frame.refl o a with
    functionCount := by simp [Arena.addFunction]
    functionAt := fun hf => (functionAt_of_push rfl).trans (if_neg (Nat.ne_of_lt hf)) }

/-- A function that was not there at first is given its body. -/
theorem setBody {f : FunctionId} {body : Block} {span : Span} (h : Frame o a b)
    (hf : a.declaredFunctions.size ≤ f.index) : Frame o a (b.setBody f body span) :=
  { h with
    functionCount := Nat.le_trans h.functionCount (Nat.le_of_eq setBody_size.symm)
    functionAt := fun {g} hg => by
      have hne : g ≠ f := fun hgf => by subst hgf; omega
      rw [functionAt_setBody, if_neg fun hg => hne hg.1, h.functionAt hg] }

end Frame

namespace Coherent

theorem fresh : Coherent .fresh where
  variableBindings {t x v} h := by
    rw [scopeAt_fresh] at h
    exact nomatch h
  functionBindings {t x f} h := by
    rw [scopeAt_fresh] at h
    exact nomatch h
  parameterScope h := nomatch h

theorem pushScope (h : a.Coherent) (hp : ScopePushed a s q b) : b.Coherent where
  variableBindings {t x v} hv := by
    by_cases htq : t = q
    · rw [htq, hp.new] at hv
      exact nomatch hv
    · rw [hp.declaredVariables, variableAt_congr hp.declaredVariables]
      exact h.variableBindings ((hp.bindings htq).1 ▸ hv)
  functionBindings {t x f} hf := by
    by_cases htq : t = q
    · rw [htq, hp.new] at hf
      exact nomatch hf
    · rw [hp.declaredFunctions, functionAt_congr hp.declaredFunctions]
      exact h.functionBindings ((hp.bindings htq).2 ▸ hf)
  parameterScope hf := by
    rw [hp.declaredFunctions] at hf
    rw [functionAt_congr hp.declaredFunctions, hp.scopeCount]
    exact Nat.lt_succ_of_lt (h.parameterScope hf)

theorem defineVariable {x : Variable} {v : VariableId} (h : a.Coherent)
    (hd : VariableDefined a s x v b) (hs : s.index < a.scopeCount) (hx : x.owner = s) :
    b.Coherent where
  variableBindings {t y w} hw := by
    rcases hd.mem_entries hs hw with hw | ⟨rfl, rfl, rfl⟩
    · obtain ⟨hlt, hold⟩ := h.variableBindings hw
      rw [hd.size, (Frame.defineVariable hd).variableAt hlt]
      exact ⟨Nat.lt_succ_of_lt hlt, hold⟩
    · rw [hd.stored]
      exact ⟨hd.lt, rfl, hx⟩
  functionBindings {t y f} hf := by
    rw [hd.declaredFunctions, functionAt_congr hd.declaredFunctions]
    exact h.functionBindings (hd.functionBindings hs ▸ hf)
  parameterScope hf := by
    rw [hd.declaredFunctions] at hf
    rw [functionAt_congr hd.declaredFunctions, hd.scopeCount]
    exact h.parameterScope hf

theorem defineFunction {x : Function} {f : FunctionId} (h : a.Coherent)
    (hd : FunctionDefined a s x f b) (hs : s.index < a.scopeCount)
    (hx : x.parameterScope.index < a.scopeCount) : b.Coherent where
  variableBindings {t y v} hv := by
    rw [hd.declaredVariables, variableAt_congr hd.declaredVariables]
    exact h.variableBindings (hd.variableBindings hs ▸ hv)
  functionBindings {t y g} hg := by
    rcases hd.mem_entries hs hg with hg | ⟨rfl, rfl, rfl⟩
    · obtain ⟨hlt, hold⟩ := h.functionBindings hg
      rw [hd.size, (Frame.defineFunction hd).functionAt hlt]
      exact ⟨Nat.lt_succ_of_lt hlt, hold⟩
    · rw [hd.stored]
      exact ⟨hd.lt, rfl⟩
  parameterScope {g} hg := by
    rw [hd.scopeCount, functionAt_of_push hd.declaredFunctions]
    rw [hd.size] at hg
    split
    · exact hx
    · exact h.parameterScope (by omega)

theorem setBody {f : FunctionId} {body : Block} {span : Span} (h : a.Coherent) :
    (a.setBody f body span).Coherent := by
  have hsize : (a.setBody f body span).declaredFunctions.size = a.declaredFunctions.size :=
    setBody_size
  have hhead : ∀ g, ((a.setBody f body span).functionAt g).signature = (a.functionAt g).signature ∧
      ((a.setBody f body span).functionAt g).parameterScope = (a.functionAt g).parameterScope := by
    intro g
    rw [functionAt_setBody]
    split <;> exact ⟨rfl, rfl⟩
  exact {
    variableBindings := h.variableBindings
    functionBindings := fun {t x g} hg => by
      rw [hsize, (hhead g).1]
      exact h.functionBindings hg
    parameterScope := fun {g} hg => by
      rw [(hhead g).2]
      exact h.parameterScope (hsize ▸ hg) }

end Coherent

end Arena

end ScriptSyntax
