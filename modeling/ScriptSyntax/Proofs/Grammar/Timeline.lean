import ScriptSyntax.Proofs.Grammar.Declared
import ScriptSyntax.Proofs.Grammar.Placement
import ScriptSyntax.Proofs.Scope.Lookup
import ScriptSyntax.Proofs.Token.Order

/-!
What was declared at each moment of reading a text. A tree is read at a slot and in an arena, and
the variables and functions of that arena are those whose declarations stand in front of the slot.
-/

namespace ScriptSyntax

open Arena

/-- The trees `os`, and those in the bodies of the functions declared between two arenas. -/
def Read (os : List (ScopeId × Node)) (a b : Arena) (o : ScopeId × Node) : Prop :=
  o ∈ os ∨ ∃ f : FunctionId, a.declaredFunctions.size ≤ f.index ∧
    f.index < b.declaredFunctions.size ∧ o ∈ (b.functionAt f).body.occurrences

/-- The slot `k` and the arena `m` in which `o`, one of the trees `N`, was read between `(i, a)` and
`(j, b)`. -/
structure Moment (T : TokenList) (i : Nat) (a : Arena) (N : ScopeId × Node → Prop) (j : Nat)
    (b : Arena) (o : ScopeId × Node) (k : Nat) (m : Arena) : Prop where
  from_start : i ≤ k
  before_end : k < j
  start : o.2.span.start = (T.get k).location
  scope : o.1.index < m.scopeCount
  resolved : o.2.ResolvedIn m o.1
  coherent : m.Coherent
  variableCount : a.declaredVariables.size ≤ m.declaredVariables.size
  functionCount : a.declaredFunctions.size ≤ m.declaredFunctions.size
  grows : m.Grows b
  variable_iff : ∀ {o' v}, N o' → o'.2.declared? = some v →
    (v.index < m.declaredVariables.size ↔ o'.2.span.finish < (T.get k).location)
  function_iff : ∀ {f : FunctionId}, a.declaredFunctions.size ≤ f.index →
    f.index < b.declaredFunctions.size →
    (f.index < m.declaredFunctions.size ↔ (b.functionAt f).span.start < (T.get k).location)
  later : ∀ {f : FunctionId}, m.declaredFunctions.size ≤ f.index →
    f.index < b.declaredFunctions.size → m.scopeCount ≤ (b.functionAt f).parameterScope.index

/-- The trees `N` read between `(i, a)` and `(j, b)`, the declarations made by them and the moments
in which they were read. -/
structure Timeline (T : TokenList) (i : Nat) (a : Arena) (N : ScopeId × Node → Prop) (j : Nat)
    (b : Arena) : Prop where
  order : i ≤ j
  scopeCount : a.scopeCount ≤ b.scopeCount
  variableCount : a.declaredVariables.size ≤ b.declaredVariables.size
  functionCount : a.declaredFunctions.size ≤ b.declaredFunctions.size
  declared : ∀ {o v}, N o → o.2.declared? = some v →
    a.declaredVariables.size ≤ v.index ∧ v.index < b.declaredVariables.size ∧
      ∃ k, i ≤ k ∧ k < j ∧ o.2.span.finish = (T.get k).location
  covered : ∀ {v : VariableId}, a.declaredVariables.size ≤ v.index →
    v.index < b.declaredVariables.size →
    b.isParameter v ∨ ∃ o, N o ∧ o.2.declared? = some v
  function : ∀ {f : FunctionId}, a.declaredFunctions.size ≤ f.index →
    f.index < b.declaredFunctions.size →
    a.scopeCount ≤ (b.functionAt f).parameterScope.index ∧
      ∃ k, i ≤ k ∧ k < j ∧ (b.functionAt f).span.start = (T.get k).location
  moment : ∀ {o}, N o → ∃ k m, Moment T i a N j b o k m

theorem Arena.isParameter_iff {a : Arena} {v : VariableId} :
    a.isParameter v ↔ ∃ f : FunctionId, f.index < a.declaredFunctions.size ∧
      ∃ q ∈ (a.functionAt f).signature.parameters,
        (a.scopeAt (a.functionAt f).parameterScope).variableBindings.get? q.name = some v := by
  have hget : ∀ {i : Nat} (h : i < a.declaredFunctions.size),
      a.functionAt ⟨i⟩ = a.declaredFunctions[i] := by
    intro i h
    simp [functionAt, h]
  simp only [isParameter, Array.any_eq_true, List.any_eq_true, decide_eq_true_eq]
  constructor
  · rintro ⟨i, hi, h⟩
    exact ⟨⟨i⟩, hi, by rw [hget hi]; exact h⟩
  · rintro ⟨⟨i⟩, hi, h⟩
    rw [hget hi] at h
    exact ⟨i, hi, h⟩

theorem Arena.Grows.isParameter {a b : Arena} {v : VariableId} (h : a.Grows b)
    (hv : a.isParameter v) : b.isParameter v := by
  obtain ⟨f, hf, q, hq, hget⟩ := isParameter_iff.1 hv
  refine isParameter_iff.2 ⟨f, Nat.lt_of_lt_of_le hf h.functionCount, q, ?_, ?_⟩
  · rw [h.signature hf]
    exact hq
  · rw [h.parameterScope hf, h.parameters hf]
    exact hget

namespace TokenList.Ordered

variable {T : TokenList} {i k : Nat}

theorem lt_iff (hT : T.Ordered) (hi : i ≤ T.size) (hk : k ≤ T.size) :
    (T.get i).location < (T.get k).location ↔ i < k := by
  constructor
  · intro h
    rcases Nat.lt_trichotomy i k with hik | rfl | hik
    · exact hik
    · exact (Location.lt_irrefl _ h).elim
    · exact (Location.lt_asymm h (hT hik hi)).elim
  · intro h
    exact hT h hk

end TokenList.Ordered

variable {T : TokenList} {i j k : Nat} {a b c : Arena} {N M : ScopeId × Node → Prop}

theorem Moment.congr {o l m} (h : Moment T i a N j b o l m) (hN : ∀ o, M o → N o) :
    Moment T i a M j b o l m :=
  { h with variable_iff := fun ho => h.variable_iff (hN _ ho) }

/-- What is read later is not declared yet at a moment of before. -/
theorem Moment.followed {o l m} (hT : T.Ordered) (hk : k ≤ T.size)
    (hm : Moment T i a N j b o l m) (h : Timeline T j b M k c) (hg : b.Grows c) :
    Moment T i a (fun o => N o ∨ M o) k c o l m := by
  have := h.order
  have := hm.before_end
  have := hm.grows.variableCount
  have := hm.grows.functionCount
  exact { hm with
    before_end := by omega
    grows := hm.grows.trans hg
    variable_iff := fun {o' v} ho hd => by
      rcases ho with ho | ho
      · exact hm.variable_iff ho hd
      · obtain ⟨hv, _, l', hl, hl', hf⟩ := h.declared ho hd
        rw [hf, hT.lt_iff (by omega) (by omega)]
        omega
    function_iff := fun {f} hf hf' => by
      rcases Nat.lt_or_ge f.index b.declaredFunctions.size with hb | hb
      · rw [hg.start hb]
        exact hm.function_iff hf hb
      · obtain ⟨_, l', hl, hl', hst⟩ := h.function hb hf'
        rw [hst, hT.lt_iff (by omega) (by omega)]
        omega
    later := fun {f} hf hf' => by
      rcases Nat.lt_or_ge f.index b.declaredFunctions.size with hb | hb
      · rw [hg.parameterScope hb]
        exact hm.later hf hb
      · exact Nat.le_trans hm.grows.scopeCount (h.function hb hf').1 }

/-- What was read earlier is declared at every moment after it. -/
theorem Moment.preceded {o l m} (hT : T.Ordered) (hk : k ≤ T.size)
    (hm : Moment T j b M k c o l m) (h : Timeline T i a N j b) (hg : b.Grows c) :
    Moment T i a (fun o => N o ∨ M o) k c o l m := by
  have := h.order
  have := h.variableCount
  have := h.functionCount
  have := hm.from_start
  have := hm.before_end
  have := hm.variableCount
  have := hm.functionCount
  exact { hm with
    from_start := by omega
    variableCount := by omega
    functionCount := by omega
    variable_iff := fun {o' v} ho hd => by
      rcases ho with ho | ho
      · obtain ⟨hv, _, l', hl, hl', hf⟩ := h.declared ho hd
        rw [hf, hT.lt_iff (by omega) (by omega)]
        omega
      · exact hm.variable_iff ho hd
    function_iff := fun {f} hf hf' => by
      rcases Nat.lt_or_ge f.index b.declaredFunctions.size with hb | hb
      · obtain ⟨_, l', hl, hl', hst⟩ := h.function hf hb
        rw [hg.start hb, hst, hT.lt_iff (by omega) (by omega)]
        omega
      · exact hm.function_iff hb hf'
    later := fun {f} hf hf' => hm.later hf hf' }

namespace Timeline

theorem congr (h : Timeline T i a N j b) (hN : ∀ o, M o ↔ N o) : Timeline T i a M j b where
  order := h.order
  scopeCount := h.scopeCount
  variableCount := h.variableCount
  functionCount := h.functionCount
  declared ho := h.declared ((hN _).1 ho)
  covered hv hv' := (h.covered hv hv').imp_right fun ⟨o, ho, hd⟩ => ⟨o, (hN o).2 ho, hd⟩
  function := h.function
  moment ho := by
    obtain ⟨l, m, hm⟩ := h.moment ((hN _).1 ho)
    exact ⟨l, m, hm.congr fun o => (hN o).1⟩

theorem mono (h : Timeline T i a N j b) {i' j' : Nat} (hi : i' ≤ i) (hj : j ≤ j') :
    Timeline T i' a N j' b where
  order := Nat.le_trans hi (Nat.le_trans h.order hj)
  scopeCount := h.scopeCount
  variableCount := h.variableCount
  functionCount := h.functionCount
  declared ho hd := by
    obtain ⟨hv, hv', k, hk, hk', hf⟩ := h.declared ho hd
    exact ⟨hv, hv', k, by omega, by omega, hf⟩
  covered := h.covered
  function hf hf' := by
    obtain ⟨hs, k, hk, hk', hl⟩ := h.function hf hf'
    exact ⟨hs, k, by omega, by omega, hl⟩
  moment ho := by
    obtain ⟨k, m, hm⟩ := h.moment ho
    have := hm.from_start
    have := hm.before_end
    exact ⟨k, m, { hm with from_start := by omega, before_end := by omega }⟩

/-- Nothing is read where no variable and no function is declared. -/
theorem quiet (hij : i ≤ j) (hs : a.scopeCount ≤ b.scopeCount)
    (hv : b.declaredVariables = a.declaredVariables)
    (hf : b.declaredFunctions = a.declaredFunctions) : Timeline T i a (fun _ => False) j b where
  order := hij
  scopeCount := hs
  variableCount := Nat.le_of_eq (by rw [hv])
  functionCount := Nat.le_of_eq (by rw [hf])
  declared ho := ho.elim
  covered h h' := by rw [hv] at h'; omega
  function h h' := by rw [hf] at h'; omega
  moment ho := ho.elim

/-- The trees of expressions are all read in the one arena there is. -/
theorem within {s m} {os : List (ScopeId × Node)} (him : i ≤ m) (hmj : m < j)
    (h : ∀ o ∈ os, Within T a s i m o) (hc : a.Coherent) (hs : s.index < a.scopeCount) :
    Timeline T i a (· ∈ os) j a where
  order := by omega
  scopeCount := Nat.le_refl _
  variableCount := Nat.le_refl _
  functionCount := Nat.le_refl _
  declared {o v} ho hd := by
    rw [(h o ho).declared] at hd
    exact nomatch hd
  covered h h' := by omega
  function h h' := by omega
  moment {o} ho := by
    obtain ⟨hos, ⟨k, hk, hkm, hst⟩, hr, _⟩ := h o ho
    exact ⟨k, a, {
      from_start := hk
      before_end := by omega
      start := hst
      scope := hos ▸ hs
      resolved := hos ▸ hr
      coherent := hc
      variableCount := Nat.le_refl _
      functionCount := Nat.le_refl _
      grows := .refl hc
      variable_iff := fun {o' v} ho' hd => by
        rw [(h o' ho').declared] at hd
        exact nomatch hd
      function_iff := fun h h' => by omega
      later := fun h h' => by omega }⟩

theorem expression {s n} (h : Placed T a s i n j) (hc : a.Coherent) (hs : s.index < a.scopeCount) :
    Timeline T i a (· ∈ n.occurrences s) j a := by
  obtain ⟨k, m, hk, hkm, hmj, _, _, hw⟩ := h
  exact within (Nat.le_trans hk hkm) hmj hw hc hs

/-- What is read first was declared when the rest is read, and not the other way round. -/
theorem append (hT : T.Ordered) (hk : k ≤ T.size) (h : Timeline T i a N j b)
    (h' : Timeline T j b M k c) (hg : b.Grows c) : Timeline T i a (fun o => N o ∨ M o) k c := by
  have := h.order
  have := h'.order
  have := h.variableCount
  have := h'.variableCount
  have := h.functionCount
  have := h'.functionCount
  exact {
    order := by omega
    scopeCount := Nat.le_trans h.scopeCount h'.scopeCount
    variableCount := by omega
    functionCount := by omega
    declared := fun {o v} ho hd => by
      rcases ho with ho | ho
      · obtain ⟨hv, hv', l, hl, hl', hf⟩ := h.declared ho hd
        exact ⟨hv, by omega, l, hl, by omega, hf⟩
      · obtain ⟨hv, hv', l, hl, hl', hf⟩ := h'.declared ho hd
        exact ⟨by omega, hv', l, by omega, hl', hf⟩
    covered := fun {v} hv hv' => by
      rcases Nat.lt_or_ge v.index b.declaredVariables.size with hb | hb
      · rcases h.covered hv hb with hp | ⟨o, ho, hd⟩
        · exact Or.inl (hg.isParameter hp)
        · exact Or.inr ⟨o, Or.inl ho, hd⟩
      · rcases h'.covered hb hv' with hp | ⟨o, ho, hd⟩
        · exact Or.inl hp
        · exact Or.inr ⟨o, Or.inr ho, hd⟩
    function := fun {f} hf hf' => by
      rcases Nat.lt_or_ge f.index b.declaredFunctions.size with hb | hb
      · obtain ⟨hs, l, hl, hl', hst⟩ := h.function hf hb
        rw [hg.parameterScope hb, hg.start hb]
        exact ⟨hs, l, hl, by omega, hst⟩
      · obtain ⟨hs, l, hl, hl', hst⟩ := h'.function hb hf'
        exact ⟨Nat.le_trans h.scopeCount hs, l, by omega, hl', hst⟩
    moment := fun {o} ho => by
      rcases ho with ho | ho
      · obtain ⟨l, m, hm⟩ := h.moment ho
        exact ⟨l, m, hm.followed hT hk h' hg⟩
      · obtain ⟨l, m, hm⟩ := h'.moment ho
        exact ⟨l, m, hm.preceded hT hk h hg⟩ }

/-- A tree whose own names are looked up before anything inside it is declared. -/
theorem cons (hT : T.Ordered) (hj : j ≤ T.size) (h : Timeline T i a N j b) (hij : i < j)
    (hc : a.Coherent) (hg : a.Grows b) {s n} (hs : s.index < a.scopeCount)
    (hst : n.span.start = (T.get i).location) (hr : n.ResolvedIn a s)
    (hd : n.declared? = none) : Timeline T i a (fun o => o = (s, n) ∨ N o) j b :=
  { h with
    declared := fun {o v} ho hd' => by
      rcases ho with rfl | ho
      · rw [hd] at hd'
        exact nomatch hd'
      · exact h.declared ho hd'
    covered := fun hv hv' => (h.covered hv hv').imp_right fun ⟨o, ho, hd⟩ => ⟨o, Or.inr ho, hd⟩
    moment := fun {o} ho => by
      have hvariable : ∀ {o' v}, (o' = (s, n) ∨ N o') → o'.2.declared? = some v →
          a.declaredVariables.size ≤ v.index ∧
            ∃ k, i ≤ k ∧ k < j ∧ o'.2.span.finish = (T.get k).location := by
        rintro o' v (rfl | ho') hd'
        · rw [hd] at hd'
          exact nomatch hd'
        · obtain ⟨hv, _, hk⟩ := h.declared ho' hd'
          exact ⟨hv, hk⟩
      rcases ho with rfl | ho
      · -- The tree itself is read at the first slot, before anything is declared.
        exact ⟨i, a, {
          from_start := Nat.le_refl _
          before_end := hij
          start := hst
          scope := hs
          resolved := hr
          coherent := hc
          variableCount := Nat.le_refl _
          functionCount := Nat.le_refl _
          grows := hg
          variable_iff := fun ho' hd' => by
            obtain ⟨hv, k, hk, hk', hf⟩ := hvariable ho' hd'
            rw [hf, hT.lt_iff (by omega) (by omega)]
            omega
          function_iff := fun hf hf' => by
            obtain ⟨_, k, hk, hk', hst⟩ := h.function hf hf'
            rw [hst, hT.lt_iff (by omega) (by omega)]
            omega
          later := fun hf hf' => (h.function hf hf').1 }⟩
      · -- The moments of the others are the same, for the tree declares nothing.
        obtain ⟨k, m, hm⟩ := h.moment ho
        exact ⟨k, m, { hm with
          variable_iff := fun {o' v} ho' hd' => by
            rcases ho' with rfl | ho'
            · rw [hd] at hd'
              exact nomatch hd'
            · exact hm.variable_iff ho' hd' }⟩ }

/-- A function is given its body where its declaration began. -/
theorem setBody (h : Timeline T i a N j b) (hc : b.Coherent) {f : FunctionId} {body : Block}
    {span : Span} (hs : span.start = (b.functionAt f).span.start) :
    Timeline T i a N j (b.setBody f body span) := by
  have hg : b.Grows (b.setBody f body span) := .setBody hc hs
  have hsize : (b.setBody f body span).declaredFunctions.size = b.declaredFunctions.size :=
    setBody_size
  exact {
    order := h.order
    scopeCount := h.scopeCount
    variableCount := h.variableCount
    functionCount := hsize ▸ h.functionCount
    declared := h.declared
    covered := fun hv hv' => (h.covered hv hv').imp_left hg.isParameter
    function := fun hf hf' => by
      rw [hsize] at hf'
      rw [hg.parameterScope hf', hg.start hf']
      exact h.function hf hf'
    moment := fun ho => by
      obtain ⟨k, m, hm⟩ := h.moment ho
      exact ⟨k, m, { hm with
        grows := hm.grows.trans hg
        function_iff := fun hf hf' => by
          rw [hsize] at hf'
          rw [hg.start hf']
          exact hm.function_iff hf hf'
        later := fun hf hf' => by
          rw [hsize] at hf'
          rw [hg.parameterScope hf']
          exact hm.later hf hf' }⟩ }

end Timeline

end ScriptSyntax
