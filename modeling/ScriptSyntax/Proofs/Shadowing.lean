import ScriptSyntax.Proofs.Consistency

/-!
What a change of an arena does to the names found from its scopes. A definition is found from where
its scope is met first on the way out, and nothing else is found differently.
-/

namespace ScriptSyntax

namespace Arena

variable {a b : Arena} {d s t : ScopeId}

/-- On the way out from `s`, the scope `d` is met before any other that binds the name. -/
def MeetsFirst {Id : Type} (a : Arena) (bindings : ScopeId → Bindings Id) (name : String)
    (d s : ScopeId) : Prop :=
  ∃ inner outer, a.chain s = inner ++ d :: outer ∧ ∀ t ∈ inner, (bindings t).get? name = none

/-- The first handle that is bound to a name on the way out from a scope. Variables and functions
are both looked up so, each among the bindings of their kind. -/
def firstBound {Id : Type} (a : Arena) (bindings : ScopeId → Bindings Id) (s : ScopeId)
    (name : String) : Option Id :=
  (a.chain s).findSome? fun t => (bindings t).get? name

/-- A name is found as `id` from where `d` is met first, and all else is found as before. -/
structure Redirects {Id : Type} (a : Arena) (bindings : ScopeId → Bindings Id) (name : String)
    (d : ScopeId) (id : Id) (before after : ScopeId → String → Option Id) : Prop where
  found : ∀ s, a.MeetsFirst bindings name d s → after s name = some id
  kept : ∀ s x, ¬ (x = name ∧ a.MeetsFirst bindings name d s) → after s x = before s x

section Chains

variable {Id : Type} {f g : ScopeId → Option Id} {l inner outer : List ScopeId} {id : Id}

theorem findSome?_meets (hd : g d = some id) (helse : ∀ t, t ≠ d → g t = f t)
    (hl : l = inner ++ d :: outer) (hinner : ∀ t ∈ inner, f t = none) :
    l.findSome? g = some id := by
  subst hl
  induction inner with
  | nil => rw [List.nil_append, List.findSome?_cons, hd]
  | cons t inner ih =>
    rw [List.cons_append, List.findSome?_cons]
    by_cases ht : t = d
    · rw [ht, hd]
    · rw [helse t ht, hinner t List.mem_cons_self]
      exact ih fun u hu => hinner u (.tail _ hu)

theorem findSome?_misses (helse : ∀ t, t ≠ d → g t = f t)
    (hmiss : ¬ ∃ inner outer, l = inner ++ d :: outer ∧ ∀ t ∈ inner, f t = none) :
    l.findSome? g = l.findSome? f := by
  induction l with
  | nil => rfl
  | cons t l ih =>
    have ht : t ≠ d := fun ht => hmiss ⟨[], l, by rw [ht]; rfl, nofun⟩
    rw [List.findSome?_cons, List.findSome?_cons, helse t ht]
    cases hf : f t with
    | some v => rfl
    | none =>
      refine ih fun ⟨inner, outer, hl, hinner⟩ => hmiss ⟨t :: inner, outer, by rw [hl]; rfl, ?_⟩
      intro u hu
      rcases List.mem_cons.1 hu with rfl | hu
      · exact hf
      · exact hinner u hu

variable {bindings bindings' : ScopeId → Bindings Id} {name : String}

theorem firstBound_congr (howner : ∀ {t : ScopeId}, t.index ≤ s.index →
      (b.scopeAt t).owner = (a.scopeAt t).owner)
    (h : ∀ {t : ScopeId}, t.index ≤ s.index → bindings' t = bindings t) :
    b.firstBound bindings' s name = a.firstBound bindings s name := by
  rw [firstBound, chain_congr howner, firstBound]
  exact findSome?_congr fun t ht => by rw [h (index_le_of_mem_chain ht)]

/-- Scope `d` binds a name to another handle, and no other scope binds anything anew. The way out of
each scope is the same, so only what `d` binds can make a difference. -/
theorem redirects_bind (howner : ∀ t, (b.scopeAt t).owner = (a.scopeAt t).owner)
    (hd : bindings' d = (bindings d).bind name id)
    (helse : ∀ t, t ≠ d → bindings' t = bindings t) :
    a.Redirects bindings name d id (a.firstBound bindings) (b.firstBound bindings') where
  found s := by
    rintro ⟨inner, outer, hchain, hinner⟩
    rw [firstBound, chain_congr fun _ => howner _]
    refine findSome?_meets ?_ (fun t ht => by rw [helse t ht]) hchain hinner
    rw [hd, Bindings.get?_bind_self]
  kept s x hx := by
    rw [firstBound, chain_congr fun _ => howner _, firstBound]
    by_cases hname : x = name
    · subst hname
      exact findSome?_misses (fun t ht => by rw [helse t ht]) fun hmeets => hx ⟨rfl, hmeets⟩
    · refine findSome?_congr fun t _ => ?_
      by_cases ht : t = d
      · rw [ht, hd, Bindings.get?_bind_of_ne hname]
      · rw [helse t ht]

end Chains

section Definitions

variable {x : Variable} {f : Function} {v : VariableId} {i : FunctionId} {replace : Bool}

theorem defineVariable_error :
    a.defineVariable d x replace = .error v ↔
      replace = false ∧ (a.scopeAt d).variableBindings.get? x.name = some v := by
  unfold defineVariable
  split
  · next e hget => simp [hget]
  · next h => exact iff_of_false nofun fun ⟨hreplace, hget⟩ => h v hget hreplace

theorem defineFunction_error :
    a.defineFunction d f replace = .error i ↔
      replace = false ∧ (a.scopeAt d).functionBindings.get? f.signature.name = some i := by
  unfold defineFunction
  split
  · next e hget => simp [hget]
  · next h => exact iff_of_false nofun fun ⟨hreplace, hget⟩ => h i hget hreplace

end Definitions

section Changes

variable {x : Variable} {f : Function} {v : VariableId} {i : FunctionId} {replace : Bool}

theorem redirects_defineVariable (hd : d.index < a.scopeCount)
    (h : a.defineVariable d x replace = .ok (v, b)) :
    a.Redirects (fun t => (a.scopeAt t).variableBindings) x.name d v a.lookupVariable?
      b.lookupVariable? ∧
    ∀ s y, b.lookupFunction? s y = a.lookupFunction? s y := by
  obtain ⟨-, -, hb⟩ := defineVariable_ok.1 h
  have hscope : ∀ t, b.scopeAt t = if t = d then { a.scopeAt t with
      variableBindings := (a.scopeAt t).variableBindings.bind x.name v } else a.scopeAt t := by
    subst hb
    exact fun t => scopeAt_modified hd
  have howner : ∀ t, (b.scopeAt t).owner = (a.scopeAt t).owner := fun t => by
    rw [hscope]
    split <;> rfl
  refine ⟨?_, fun s y => firstBound_congr (fun _ => howner _) fun {t} _ => ?_⟩
  · exact redirects_bind howner (by rw [hscope, if_pos rfl]) fun t ht => by rw [hscope, if_neg ht]
  · rw [hscope]
    split <;> rfl

theorem redirects_defineFunction (hd : d.index < a.scopeCount)
    (h : a.defineFunction d f replace = .ok (i, b)) :
    a.Redirects (fun t => (a.scopeAt t).functionBindings) f.signature.name d i a.lookupFunction?
      b.lookupFunction? ∧
    ∀ s y, b.lookupVariable? s y = a.lookupVariable? s y := by
  obtain ⟨-, -, hb⟩ := defineFunction_ok.1 h
  have hscope : ∀ t, b.scopeAt t = if t = d then { a.scopeAt t with
      functionBindings := (a.scopeAt t).functionBindings.bind f.signature.name i }
      else a.scopeAt t := by
    subst hb
    exact fun t => scopeAt_modified hd
  have howner : ∀ t, (b.scopeAt t).owner = (a.scopeAt t).owner := fun t => by
    rw [hscope]
    split <;> rfl
  refine ⟨?_, fun s y => firstBound_congr (fun _ => howner _) fun {t} _ => ?_⟩
  · exact redirects_bind howner (by rw [hscope, if_pos rfl]) fun t ht => by rw [hscope, if_neg ht]
  · rw [hscope]
    split <;> rfl

/-- A new scope is on no way out but its own, and binds nothing. -/
theorem lookups_pushScope {o q : ScopeId} (h : ScopePushed a o q b) :
    (∀ s y, s.index < a.scopeCount → b.lookupVariable? s y = a.lookupVariable? s y ∧
      b.lookupFunction? s y = a.lookupFunction? s y) ∧
    ∀ y, b.lookupVariable? q y = a.lookupVariable? o y ∧
      b.lookupFunction? q y = a.lookupFunction? o y := by
  have hframe := Frame.pushScope h
  have hold : ∀ s y, s.index < a.scopeCount → b.lookupVariable? s y = a.lookupVariable? s y ∧
      b.lookupFunction? s y = a.lookupFunction? s y := by
    intro s y hs
    have hlt : ∀ {t : ScopeId}, t.index ≤ s.index → t.index < a.scopeCount := fun ht =>
      Nat.lt_of_le_of_lt ht hs
    exact ⟨firstBound_congr (fun ht => hframe.owner (hlt ht))
        fun ht => (hframe.elsewhere (hlt ht) (Option.some_ne_none _)).1,
      firstBound_congr (fun ht => hframe.owner (hlt ht))
        fun ht => (hframe.elsewhere (hlt ht) (Option.some_ne_none _)).2⟩
  refine ⟨hold, fun y => ?_⟩
  have hlt : o.index < q.index := by
    rw [h.id]
    exact h.inside
  have hchain : b.chain q = q :: b.chain o := by
    rw [chain, h.new]
    simp only [hlt, ↓reduceDIte]
  obtain ⟨hvariable, hfunction⟩ := hold o y h.inside
  rw [← hvariable, ← hfunction, lookupVariable?, lookupFunction?, hchain, List.findSome?_cons,
    List.findSome?_cons, h.new]
  exact ⟨rfl, rfl⟩

end Changes

/-- A definition is refused if its scope binds the name and may not give it up, and then nothing is
changed. Otherwise the new handle is found from where the scope is met first, every other lookup is
as before, and the names of the other kind are not touched. A new scope finds what its owner does,
and is found from nowhere else. -/
theorem definition_changes_lookups (h : Reachable a) (hd : d.index < a.scopeCount)
    (replace : Bool) :
    (∀ x : Variable,
      (∀ e, a.defineVariable d x replace = .error e ↔
        replace = false ∧ (a.scopeAt d).variableBindings.get? x.name = some e) ∧
      (∀ e, a.defineVariable d x replace = .error e →
        a.after (.defineVariable d x replace) = a) ∧
      ∀ v b, a.defineVariable d x replace = .ok (v, b) →
        a.declaredVariables.size ≤ v.index ∧
        (∀ t y, (a.scopeAt t).variableBindings.get? y ≠ some v) ∧
        a.Redirects (fun t => (a.scopeAt t).variableBindings) x.name d v a.lookupVariable?
          b.lookupVariable? ∧
        ∀ s y, b.lookupFunction? s y = a.lookupFunction? s y) ∧
    (∀ f : Function,
      (∀ e, a.defineFunction d f replace = .error e ↔
        replace = false ∧ (a.scopeAt d).functionBindings.get? f.signature.name = some e) ∧
      (∀ e, a.defineFunction d f replace = .error e →
        a.after (.defineFunction d f replace) = a) ∧
      ∀ i b, a.defineFunction d f replace = .ok (i, b) →
        a.declaredFunctions.size ≤ i.index ∧
        (∀ t y, (a.scopeAt t).functionBindings.get? y ≠ some i) ∧
        a.Redirects (fun t => (a.scopeAt t).functionBindings) f.signature.name d i
          a.lookupFunction? b.lookupFunction? ∧
        ∀ s y, b.lookupVariable? s y = a.lookupVariable? s y) ∧
    ∀ q b, a.pushScope (some d) = (q, b) → q.index = a.scopeCount ∧
      (∀ s y, s.index < a.scopeCount → b.lookupVariable? s y = a.lookupVariable? s y ∧
        b.lookupFunction? s y = a.lookupFunction? s y) ∧
      ∀ y, b.lookupVariable? q y = a.lookupVariable? d y ∧
        b.lookupFunction? q y = a.lookupFunction? d y := by
  refine ⟨fun x => ⟨fun e => defineVariable_error, fun e he => ?_, fun v b hv => ?_⟩,
    fun f => ⟨fun e => defineFunction_error, fun e he => ?_, fun i b hi => ?_⟩,
    fun q b hq => ⟨(scopePushed hq hd).id, lookups_pushScope (scopePushed hq hd)⟩⟩
  · simp only [after, he]
  · obtain ⟨-, rfl, -⟩ := defineVariable_ok.1 hv
    refine ⟨Nat.le_refl _, fun t y hget => ?_, redirects_defineVariable hd hv⟩
    exact Nat.lt_irrefl _ (h.kept.boundVariables.named hget).1
  · simp only [after, he]
  · obtain ⟨-, rfl, -⟩ := defineFunction_ok.1 hi
    refine ⟨Nat.le_refl _, fun t y hget => ?_, redirects_defineFunction hd hi⟩
    exact Nat.lt_irrefl _ (h.kept.boundFunctions.named hget).1

/-- A name is defined between a scope that binds it and one further out: only the scope itself finds
the new variable, and a function of that name is still found. Where the name is taken, it is
refused. A scope opened there is the fourth, and finds what that one does. -/
theorem definition_changes_lookups_between :
    ∃ a v b, Reachable a ∧
      a.defineVariable ⟨1⟩ ⟨.int, "x", ⟨1⟩, .unknown⟩ false = .ok (v, b) ∧
      b.lookupVariable? ⟨1⟩ "x" = some v ∧ b.lookupVariable? ⟨2⟩ "x" = some ⟨1⟩ ∧
      b.lookupFunction? ⟨2⟩ "x" = some ⟨0⟩ ∧
      (∀ t y, (a.scopeAt t).variableBindings.get? y ≠ some v) ∧
      a.defineVariable ⟨2⟩ ⟨.string, "x", ⟨2⟩, .unknown⟩ false = .error ⟨1⟩ ∧
      a.after (.defineVariable ⟨2⟩ ⟨.string, "x", ⟨2⟩, .unknown⟩ false) = a ∧
      ∃ q c, a.pushScope (some ⟨2⟩) = (q, c) ∧ q.index = 3 ∧
        c.lookupVariable? q "x" = some ⟨1⟩ := by
  have h := Reachable.empty.change (.pushScope none) (by decide)
  have h := h.change (.pushScope (some ⟨0⟩)) (by decide)
  have h := h.change (.pushScope (some ⟨1⟩)) (by decide)
  have h := h.change (.defineVariable ⟨0⟩ ⟨.int, "x", ⟨0⟩, .unknown⟩ false) (by decide)
  have h := h.change (.defineVariable ⟨2⟩ ⟨.int, "x", ⟨2⟩, .unknown⟩ false) (by decide)
  have h := h.change (.defineFunction ⟨0⟩
    ⟨⟨.void, "x", []⟩, ⟨0⟩, ⟨0⟩, default, .unknown⟩ false) (by decide)
  obtain ⟨hvariable, -, -⟩ := definition_changes_lookups h (d := ⟨1⟩) (by decide) false
  obtain ⟨-, -, hdefined⟩ := hvariable ⟨.int, "x", ⟨1⟩, .unknown⟩
  obtain ⟨-, hbound, hredirects, hfunctions⟩ := hdefined _ _ rfl
  obtain ⟨hrefused, -, hpushed⟩ := definition_changes_lookups h (d := ⟨2⟩) (by decide) false
  obtain ⟨hnew, -, howner⟩ := hpushed _ _ rfl
  obtain ⟨herror, hsame, -⟩ := hrefused ⟨.string, "x", ⟨2⟩, .unknown⟩
  have he := (herror ⟨1⟩).2 ⟨rfl, by decide⟩
  refine ⟨_, _, _, h, rfl, hredirects.found ⟨1⟩ ⟨[], [⟨0⟩], by decide +kernel, nofun⟩, ?_, ?_,
    hbound, he, hsame _ he, _, _, rfl, hnew, (howner "x").1.trans (by decide +kernel)⟩
  · refine (hredirects.kept ⟨2⟩ "x" ?_).trans (by decide +kernel)
    -- The way out of the innermost scope begins with itself, and it binds the name.
    rintro ⟨-, inner, outer, hchain, hinner⟩
    have hout := hchain.symm.trans (show _ = [⟨2⟩, ⟨1⟩, ⟨0⟩] by decide +kernel)
    cases inner with
    | nil => cases hout
    | cons t inner =>
      obtain rfl := (List.cons.inj hout).1
      exact absurd (hinner _ List.mem_cons_self) (by decide +kernel)
  · exact (hfunctions ⟨2⟩ "x").trans (by decide +kernel)

end Arena

end ScriptSyntax
