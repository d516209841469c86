import ScriptSyntax.Proofs.Grammar.Timeline

/-!
The timeline of each rule, put together from those of its parts.
-/

namespace ScriptSyntax

open Arena

variable {T : TokenList} {a b c : Arena} {os os' : List (ScopeId × Node)} {o : ScopeId × Node}

theorem occurrencesOf_append {s : ScopeId} (ns ms : List Node) :
    occurrencesOf s (ns ++ ms) = occurrencesOf s ns ++ occurrencesOf s ms := by
  induction ns with
  | nil => rfl
  | cons n ns ih => rw [List.cons_append, occurrencesOf, occurrencesOf, ih, List.append_assoc]

theorem occurrencesOf_singleton {s : ScopeId} (n : Node) :
    occurrencesOf s [n] = n.occurrences s := by
  rw [occurrencesOf, occurrencesOf, List.append_nil]

theorem read_self : Read os a a o ↔ o ∈ os :=
  ⟨fun h => h.resolve_right fun ⟨f, h, h', _⟩ => by omega, Or.inl⟩

theorem read_cons {o'} : Read (o' :: os) a b o ↔ o = o' ∨ Read os a b o := by
  simp only [Read, List.mem_cons, or_assoc]

/-- Trees are read in the first part or in the rest, if the rest keeps the bodies of before. -/
theorem read_append {s : Option ScopeId} (hab : a.declaredFunctions.size ≤ b.declaredFunctions.size)
    (hbc : Frame s b c) : Read (os ++ os') a c o ↔ Read os a b o ∨ Read os' b c o := by
  have := hbc.functionCount
  simp only [Read, List.mem_append]
  constructor
  · rintro ((h | h) | ⟨f, hf, hf', h⟩)
    · exact Or.inl (Or.inl h)
    · exact Or.inr (Or.inl h)
    · rcases Nat.lt_or_ge f.index b.declaredFunctions.size with hb | hb
      · rw [hbc.functionAt hb] at h
        exact Or.inl (Or.inr ⟨f, hf, hb, h⟩)
      · exact Or.inr (Or.inr ⟨f, hb, hf', h⟩)
  · rintro ((h | ⟨f, hf, hf', h⟩) | (h | ⟨f, hf, hf', h⟩))
    · exact Or.inl (Or.inl h)
    · rw [← hbc.functionAt hf'] at h
      exact Or.inr ⟨f, hf, by omega, h⟩
    · exact Or.inl (Or.inr h)
    · exact Or.inr ⟨f, by omega, hf', h⟩

/-- A scope whose names are declared by statements, not by parameters. -/
structure Arena.BodyScope (a : Arena) (s : ScopeId) : Prop where
  lt : s.index < a.scopeCount
  parameterScope : ∀ {f : FunctionId}, f.index < a.declaredFunctions.size →
    (a.functionAt f).parameterScope ≠ s

theorem Arena.BodyScope.grows {s : ScopeId} (h : a.BodyScope s) (hc : a.Coherent)
    (hf : Frame (some s) a b) : a.Grows b :=
  hf.grows hc fun _ hf h' => h.parameterScope hf (Option.some.inj h')

theorem Arena.Frame.grows_none (h : Frame none a b) (hc : a.Coherent) : a.Grows b :=
  h.grows hc nofun

theorem Timeline.bodyScope {i j N s} (h : Timeline T i a N j b) (hf : Frame (some s) a b)
    (hs : a.BodyScope s) : b.BodyScope s where
  lt := Nat.lt_of_lt_of_le hs.lt hf.scopeCount
  parameterScope {f} hlt := by
    rcases Nat.lt_or_ge f.index a.declaredFunctions.size with ha | ha
    · rw [hf.functionAt ha]
      exact hs.parameterScope ha
    · intro he
      have := (h.function ha hlt).1
      rw [he] at this
      exact Nat.lt_irrefl _ (Nat.lt_of_lt_of_le hs.lt this)

/-- A variable is declared behind its value, so no tree of the value comes after. -/
theorem Timeline.declare {i l j s n x v} (hT : T.Ordered) (hj : j ≤ T.size)
    (h : Placed T a s l n j) (hl : i ≤ l) (hc : a.Coherent) (hs : a.BodyScope s)
    (hd : VariableDefined a s x v b) :
    Timeline T i a (· ∈ (Node.declare v n ⟨(T.get i).location, n.span.finish⟩).occurrences s)
      j b := by
  obtain ⟨k₀, m, hk₀, hkm₀, hmj, _, hf, hw⟩ := h
  have hframe := Frame.defineVariable hd
  have hg := hs.grows hc hframe
  have hv := hd.id
  have hsize := hd.size
  have hfunctions : b.declaredFunctions.size = a.declaredFunctions.size := by
    rw [hd.declaredFunctions]
  -- The one declaration among these trees ends at slot `m`.
  have hdeclared : ∀ {o : ScopeId × Node} {w},
      o ∈ (Node.declare v n ⟨(T.get i).location, n.span.finish⟩).occurrences s →
      o.2.declared? = some w → w = v ∧ o.2.span.finish = (T.get m).location := by
    intro o w ho hw'
    rcases List.mem_cons.1 ho with rfl | ho
    · exact ⟨(Option.some.inj hw').symm, hf⟩
    · rw [(hw o ho).declared] at hw'
      exact nomatch hw'
  have hmoment : ∀ {o : ScopeId × Node} {k}, i ≤ k → k ≤ m → o.1 = s →
      o.2.span.start = (T.get k).location → o.2.ResolvedIn a s →
      Moment T i a (· ∈ (Node.declare v n ⟨(T.get i).location, n.span.finish⟩).occurrences s)
        j b o k a := by
    intro o k hik hkm hos hst hr
    exact {
      from_start := hik
      before_end := by omega
      start := hst
      scope := hos ▸ hs.lt
      resolved := hos ▸ hr
      coherent := hc
      variableCount := Nat.le_refl _
      functionCount := Nat.le_refl _
      grows := hg
      variable_iff := fun ho' hw' => by
        obtain ⟨rfl, hf'⟩ := hdeclared ho' hw'
        rw [hf', hT.lt_iff (by omega) (by omega)]
        omega
      function_iff := fun h h' => by omega
      later := fun h h' => by omega }
  exact {
    order := by omega
    scopeCount := hframe.scopeCount
    variableCount := hframe.variableCount
    functionCount := hframe.functionCount
    declared := fun ho hw' => by
      obtain ⟨rfl, hf'⟩ := hdeclared ho hw'
      exact ⟨by omega, by omega, m, by omega, hmj, hf'⟩
    covered := fun {w} hw hw' => by
      have hwv : w = v := VariableId.ext (by omega)
      exact Or.inr ⟨_, List.mem_cons_self, hwv ▸ rfl⟩
    function := fun h h' => by omega
    moment := fun {o} ho => by
      rcases List.mem_cons.1 ho with rfl | ho
      · exact ⟨i, a, hmoment (Nat.le_refl _) (by omega) rfl rfl trivial⟩
      · obtain ⟨hos, ⟨k, hk, hkm, hst⟩, hr, _⟩ := hw o ho
        exact ⟨k, a, hmoment (by omega) hkm hos hst hr⟩ }

/-- All that a head declares are the function and its parameters. -/
theorem HeadAt.timeline {s i g f q j d} (h : HeadAt T s i a g f q j d) (hc : a.Coherent)
    (hs : s.index < a.scopeCount) : Timeline T i a (fun _ => False) j d := by
  have hd := h.declared hc hs
  have hlt := h.lt
  exact {
    order := Nat.le_of_lt hlt
    scopeCount := hd.frame.scopeCount
    variableCount := hd.frame.variableCount
    functionCount := hd.frame.functionCount
    declared := fun ho => ho.elim
    covered := fun hv hv' => by
      obtain ⟨p, hp, hget⟩ := hd.parameter hv hv'
      refine Or.inl (isParameter_iff.2 ⟨f, by rw [hd.id, hd.functionCount]; omega, p, ?_, ?_⟩)
      · rw [hd.head]
        exact hp
      · rw [hd.head]
        exact hget
    function := fun {f'} hf hf' => by
      have hid := hd.id
      have hcount := hd.functionCount
      have hff : f' = f := FunctionId.ext (by omega)
      rw [hff, hd.head]
      exact ⟨Nat.le_of_eq hd.scope.symm, i, Nat.le_refl _, hlt, rfl⟩
    moment := fun ho => ho.elim }

theorem HeadDeclared.start {s i g f q d} (h : HeadDeclared T s i a g f q d) {o : Option ScopeId}
    (hf : Frame o d b) : (b.functionAt f).span.start = (T.get i).location := by
  rw [hf.functionAt (by rw [h.id, h.functionCount]; omega), h.head]
  rfl

/-- What is read inside a function is its body, and the functions declared in there. -/
theorem HeadDeclared.read {s i g f q d block span} (h : HeadDeclared T s i a g f q d)
    (hf : Frame none d c) :
    Read [] a (c.setBody f block span) o ↔ Read block.occurrences d c o := by
  have hid := h.id
  have hcount := h.functionCount
  have := hf.functionCount
  have hsize : (c.setBody f block span).declaredFunctions.size = c.declaredFunctions.size :=
    setBody_size
  have hself : ((c.setBody f block span).functionAt f).body = block := by
    rw [functionAt_setBody, if_pos ⟨rfl, by omega⟩]
  have hother : ∀ {g : FunctionId}, d.declaredFunctions.size ≤ g.index →
      (c.setBody f block span).functionAt g = c.functionAt g := by
    intro g hg
    rw [functionAt_setBody, if_neg]
    rintro ⟨rfl, _⟩
    omega
  simp only [Read, List.not_mem_nil, false_or, hsize]
  constructor
  · rintro ⟨g, hg, hg', ho⟩
    -- The first function after `a` is `f` itself; all others are declared in its body.
    rcases Nat.lt_or_ge g.index d.declaredFunctions.size with hlt | hge
    · obtain rfl : g = f := FunctionId.ext (by omega)
      rw [hself] at ho
      exact Or.inl ho
    · rw [hother hge] at ho
      exact Or.inr ⟨g, hge, hg', ho⟩
  · rintro (ho | ⟨g, hg, hg', ho⟩)
    · exact ⟨f, by omega, by omega, by rw [hself]; exact ho⟩
    · exact ⟨g, by omega, hg', by rw [hother hg]; exact ho⟩

theorem BlockAt.start {s i a cs block j b} (h : BlockAt T s i a cs block j b) :
    block.span.start = (T.get i).location := by
  cases h with
  | mk _ _ _ _ => rfl

theorem Timeline.read {i j os} (h : Timeline T i a (· ∈ os) j a) :
    Timeline T i a (Read os a a) j a :=
  h.congr fun _ => read_self

theorem Timeline.read_nil {i j} (h : Timeline T i a (fun _ => False) j b)
    (hf : b.declaredFunctions = a.declaredFunctions) : Timeline T i a (Read [] a b) j b :=
  h.congr fun o => ⟨fun ho => by
    rcases ho with ho | ⟨f, hl, hl', _⟩
    · exact nomatch ho
    · rw [hf] at hl'
      omega, False.elim⟩

/-- A statement is read before what stands inside it. -/
theorem Timeline.statement {i j s n} (h : Timeline T i a (Read os a b) j b)
    (hn : n.occurrences s = (s, n) :: os) (hT : T.Ordered) (hj : j ≤ T.size) (hij : i < j)
    (hc : a.Coherent) (hg : a.Grows b) (hs : s.index < a.scopeCount)
    (hst : n.span.start = (T.get i).location) (hr : n.ResolvedIn a s) (hd : n.declared? = none) :
    Timeline T i a (Read (occurrencesOf s (some n).toList) a b) j b :=
  (h.cons hT hj hij hc hg hs hst hr hd).congr fun o => by
    rw [Option.toList, occurrencesOf_singleton, hn, read_cons]

/-- An expression in front of a block. -/
theorem Timeline.behind {s i k l j n} {block : Block} (hT : T.Ordered) (hj : j ≤ T.size)
    (hn : Placed T a s i n k) (hkl : k ≤ l) (hc : a.Coherent) (hs : s.index < a.scopeCount)
    (hb : Timeline T l a (Read block.occurrences a b) j b) (hf : Frame none a b) :
    Timeline T i a (Read (n.occurrences s ++ block.occurrences) a b) j b := by
  have he := Timeline.expression (hn.mono (Nat.le_refl _) hkl) hc hs
  exact (he.append hT hj hb (hf.grows_none hc)).congr fun o => by
    rw [read_append (Nat.le_refl _) hf, read_self]

mutual

theorem StatementAt.timeline {s i a c o j b} (h : StatementAt T s i a c o j b) (hT : T.Ordered)
    (hc : a.Coherent) (hs : a.BodyScope s) :
    Timeline T i a (Read (occurrencesOf s o.toList) a b) j b := by
  have hj := h.le_size
  match h with
  | .expression _ _ h _ =>
    have := Timeline.expression (h.placed.mono (Nat.le_refl _) (Nat.le_succ _)) hc hs.lt
    exact this.congr fun o => by rw [read_self, Option.toList, occurrencesOf_singleton]
  | .declare (j := l) _ _ _ _ h hd _ =>
    have hp : Placed T a s (i + 3) _ (l + 1) := h.placed.mono (Nat.le_refl _) (Nat.le_succ _)
    have hd := variableDefined hd
    have hf : Frame (some s) a b := .defineVariable hd
    exact (Timeline.declare hT hj hp (by omega) hc hs hd).congr fun o => by
      rw [← List.append_nil (occurrencesOf _ _), read_append (Nat.le_refl _) hf, read_self,
        Option.toList, occurrencesOf_singleton]
      refine ⟨fun h => h.resolve_right ?_, Or.inl⟩
      rintro (h | ⟨f, h, h', _⟩)
      · exact nomatch h
      · rw [hd.declaredFunctions] at h'
        omega
  | .assign (j := l) _ hx _ h _ =>
    have hp : Placed T a s i _ (l + 1) := h.placed.mono (by omega) (by omega)
    have hl := h.lt
    exact (Timeline.expression hp hc hs.lt).read.statement rfl hT hj (by omega) hc (.refl hc) hs.lt
      rfl ⟨_, hx⟩ rfl
  | .print (j := l) _ _ h _ =>
    obtain ⟨m, hm, hml, _, hw⟩ := h.placed
    have ht : Timeline T i a _ (l + 1) a := .within (by omega) (by omega)
      (fun o ho => (hw o ho).mono (by omega) (Nat.le_refl _)) hc hs.lt
    exact ht.read.statement rfl hT hj (by omega) hc (.refl hc) hs.lt rfl trivial rfl
  | .giveBackNothing _ _ =>
    have ht : Timeline T i a (Read [] a a) (i + 2) a :=
      (Timeline.quiet (by omega) (Nat.le_refl _) rfl rfl).read_nil rfl
    exact ht.statement rfl hT hj (by omega) hc (.refl hc) hs.lt rfl trivial rfl
  | .giveBack (j := l) _ h _ =>
    have hp : Placed T a s i _ (l + 1) := h.placed.mono (by omega) (by omega)
    have hl := h.lt
    exact (Timeline.expression hp hc hs.lt).read.statement rfl hT hj (by omega) hc (.refl hc) hs.lt
      rfl trivial rfl
  | .block hb =>
    obtain ⟨hf, _⟩ := hb.frame hc hs.lt
    exact (hb.timeline hT hc hs.lt).statement rfl hT hj hb.lt hc (hf.grows_none hc) hs.lt hb.start
      trivial rfl
  | .branch _ _ h _ hb _ | .whileLoop _ _ h _ hb =>
    obtain ⟨hf, _⟩ := hb.frame hc hs.lt
    have hl := h.lt
    have hl' := hb.lt
    have ht := Timeline.behind hT hj h.placed (Nat.le_succ _) hc hs.lt (hb.timeline hT hc hs.lt) hf
    exact (ht.mono (by omega) (Nat.le_refl _)).statement rfl hT hj (by omega) hc (hf.grows_none hc)
      hs.lt rfl trivial rfl
  | .branchElse (k := l) (b := d) _ _ h _ hb _ hb' =>
    obtain ⟨hf, hcd⟩ := hb.frame hc hs.lt
    have hsd := Nat.lt_of_lt_of_le hs.lt hf.scopeCount
    obtain ⟨hf', _⟩ := hb'.frame hcd hsd
    have hl := h.lt
    have hl' := hb.lt
    have hl'' := hb'.lt
    have ht := Timeline.behind hT hb.le_size h.placed (Nat.le_succ _) hc hs.lt
      (hb.timeline hT hc hs.lt) hf
    have ht' := (ht.mono (Nat.le_refl _) (Nat.le_succ l)).append hT hj (hb'.timeline hT hcd hsd)
      (hf'.grows_none hcd)
    have ht' := ht'.congr fun o => read_append hf.functionCount hf'
    exact (ht'.mono (by omega) (Nat.le_refl _)).statement rfl hT hj (by omega) hc
      ((hf.trans hf').grows_none hc) hs.lt rfl trivial rfl
  | .forLoop _ _ _ hx _ h _ hb =>
    obtain ⟨hf, _⟩ := hb.frame hc hs.lt
    have hl := h.lt
    have hl' := hb.lt
    have ht := Timeline.behind hT hj h.placed (Nat.le_succ _) hc hs.lt (hb.timeline hT hc hs.lt) hf
    exact (ht.mono (by omega) (Nat.le_refl _)).statement rfl hT hj (by omega) hc (hf.grows_none hc)
      hs.lt rfl ⟨_, hx⟩ rfl
  | .function hh hb =>
    -- The head comes first, so the function is declared in its own body; no tree is left behind.
    have hd := hh.declared hc hs.lt
    obtain ⟨hf, hcb⟩ := hb.frame hd.coherent hd.lt
    have ht := (hh.timeline hc hs.lt).append hT hj (hb.timeline hT hd.coherent hd.lt)
      (hf.grows_none hd.coherent)
    exact (ht.setBody hcb (hd.start hf).symm).congr fun o => by
      rw [Option.toList, occurrencesOf, hd.read hf, false_or]
  | .native (g := g) (r := r) (j := l) (c := d) hh _ _ _ hr =>
    -- The body is the call alone, in a scope of its own.
    have hd := hh.declared hc hs.lt
    have hr := scopePushed hr hd.lt
    have hf := Frame.pushScope hr
    have hcd := hd.coherent.pushScope hr
    have hg := hf.grows_none hd.coherent
    have hq : Timeline T l _ _ l d := .quiet (Nat.le_refl _) hf.scopeCount hr.declaredVariables
      hr.declaredFunctions
    have hn : Timeline T l d (Read [] d d) (l + 3) d :=
      (Timeline.quiet (by omega) (Nat.le_refl _) rfl rfl).read_nil rfl
    have hn := hn.statement (n := .nativeCall g (T.get (l + 1)).text
      ⟨(T.get l).location, (T.get (l + 2)).location⟩) rfl hT hj (by omega) hcd (.refl hcd) hr.lt
      rfl trivial rfl
    have ht := (hh.timeline hc hs.lt).append hT hj (hq.append hT hj hn (.refl hcd)) hg
    exact (ht.setBody hcd (hd.start hf).symm).congr fun o => by
      rw [Option.toList, occurrencesOf, hd.read hf, false_or, false_or, nativeBlock,
        Block.occurrences, Read, Read, hr.declaredFunctions]
      rfl

theorem ItemsAt.timeline {s i a cs ns j b} (h : ItemsAt T s i a cs ns j b) (hT : T.Ordered)
    (hc : a.Coherent) (hs : a.BodyScope s) :
    Timeline T i a (Read (occurrencesOf s ns) a b) j b := by
  match h with
  | .nil =>
    exact (Timeline.quiet (Nat.le_refl _) (Nat.le_refl _) rfl rfl).congr fun o => by
      rw [read_self]
      exact ⟨nofun, False.elim⟩
  | .semicolon _ h =>
    exact (h.timeline hT hc hs).mono (Nat.le_succ i) (Nat.le_refl _)
  | .cons h ht =>
    obtain ⟨hf, hcb⟩ := h.frame hc hs.lt
    have h₁ := h.timeline hT hc hs
    -- No function declared by the statement has its parameters in `s`, which is older.
    have hsb := h₁.bodyScope hf hs
    obtain ⟨hf', _⟩ := ht.frame hcb hsb.lt
    have h₂ := ht.timeline hT hcb hsb
    exact (h₁.append hT (ht.le_size h.le_size) h₂ (hsb.grows hcb hf')).congr fun o => by
      rw [occurrencesOf_append, read_append hf.functionCount hf']

theorem BlockAt.timeline {s i a cs block j b} (h : BlockAt T s i a cs block j b) (hT : T.Ordered)
    (hc : a.Coherent) (hs : s.index < a.scopeCount) :
    Timeline T i a (Read block.occurrences a b) j b := by
  have hj := h.le_size
  match h with
  | .mk (b := d) _ hp h _ =>
    have hp := scopePushed hp hs
    have hframe := Frame.pushScope hp
    have hcd := hc.pushScope hp
    -- The parameters of the functions there are belong to older scopes.
    have hs' : d.BodyScope _ := ⟨hp.lt, fun {f} hf he => by
      rw [functionAt_congr hp.declaredFunctions] at he
      have := hc.parameterScope (hp.declaredFunctions ▸ hf)
      rw [he, hp.id] at this
      exact Nat.lt_irrefl _ this⟩
    obtain ⟨hf, hcb⟩ := h.frame hcd hp.lt
    have hq : Timeline T i a _ (i + 1) d := .quiet (Nat.le_succ i) hframe.scopeCount
      hp.declaredVariables hp.declaredFunctions
    have ht := hq.append hT (Nat.le_of_succ_le hj) (h.timeline hT hcd hs')
      (hs'.grows hcd hf)
    exact (ht.mono (Nat.le_refl _) (Nat.le_succ _)).congr fun o => by
      rw [Block.occurrences, false_or, Read, Read, hp.declaredFunctions]

end

end ScriptSyntax
