import ScriptSyntax.Proofs.Grammar.Laid

/-!
How blocks and functions lie over their tokens. What is read between two arenas is kept together,
with the functions declared on the way, whose bodies are not among the trees around them.
-/

namespace ScriptSyntax

open Arena TokenList

variable {T : TokenList}

/-- The stretch of a member of a block, a statement or a function. -/
def memberSpan : Node ⊕ Function → Span := Sum.elim Node.span Function.span

namespace TokenList

/-- The statements `ns` and those of the functions that are declared in scope `s`, all together at
slots `i` up to `j`, one behind the other. -/
def Members (T : TokenList) (F : List Function) (s : ScopeId) (ns : List Node) (i j : Nat) : Prop :=
  ∃ ms : List (Node ⊕ Function), ms.filterMap Sum.getLeft? = ns ∧
    ms.filterMap Sum.getRight? = F.filter (·.owner = s) ∧ T.InTurn i j (ms.map memberSpan)

/-- A block takes up a stretch of tokens, and its members follow one another within. -/
def LaysBlock (T : TokenList) (F : List Function) (c : Block) : Prop :=
  ∃ k m, k ≤ m ∧ m < T.size ∧ c.span = T.span k m ∧ T.Members F c.scope c.body k (m + 1)

/-- A function takes up a stretch of tokens that ends with its body, and in front of that are the
names of its parameters. -/
def LaysFunction (T : TokenList) (a : Arena) (f : Function) : Prop :=
  ∃ k l m, k < l ∧ l ≤ m ∧ m < T.size ∧ f.span = T.span k m ∧ f.body.span = T.span l m ∧
    ∀ v ∈ (a.scopeAt f.parameterScope).variableBindings.ids,
      ∃ x, k < x ∧ x < l ∧ (a.variableAt v).location = (T.get x).location

end TokenList

section Members

variable {F F' : List Function} {s : ScopeId} {ns ns' : List Node} {i j k : Nat} {c : Block}

theorem filter_append_owner (h : ∀ f ∈ F', f.owner ≠ s) :
    (F ++ F').filter (·.owner = s) = F.filter (·.owner = s) := by
  have hnil : F'.filter (·.owner = s) = [] := List.filter_eq_nil_iff.2 (by simpa using h)
  rw [List.filter_append, hnil, List.append_nil]

theorem filter_owner_append (h : ∀ f ∈ F, f.owner ≠ s) :
    (F ++ F').filter (·.owner = s) = F'.filter (·.owner = s) := by
  have hnil : F.filter (·.owner = s) = [] := List.filter_eq_nil_iff.2 (by simpa using h)
  rw [List.filter_append, hnil, List.nil_append]

theorem TokenList.Members.append (h : T.Members F s ns i j) (h' : T.Members F' s ns' j k) :
    T.Members (F ++ F') s (ns ++ ns') i k := by
  obtain ⟨ms, hns, hF, hms⟩ := h
  obtain ⟨ms', hns', hF', hms'⟩ := h'
  refine ⟨ms ++ ms', ?_, ?_, ?_⟩
  · rw [List.filterMap_append, hns, hns']
  · rw [List.filterMap_append, hF, hF', List.filter_append]
  · rw [List.map_append]
    exact hms.append hms'

/-- One statement, and no function beside it. -/
theorem TokenList.members_statement {n : Node} (hF : ∀ f ∈ F, f.owner ≠ s)
    (h : T.Spans i j n.span) : T.Members F s [n] i j := by
  refine ⟨[.inl n], rfl, ?_, .single h⟩
  rw [List.filter_eq_nil_iff.2 fun f hf => by simpa using hF f hf]
  rfl

/-- One function, and no other beside it. -/
theorem TokenList.members_function {f : Function} (hf : f.owner = s) (hF : ∀ g ∈ F, g.owner ≠ s)
    (h : T.Spans i j f.span) : T.Members (f :: F) s [] i j := by
  refine ⟨[.inr f], rfl, ?_, .single h⟩
  have hnone := filter_append_owner (F := [f]) hF
  rw [List.singleton_append, List.filter_singleton, decide_eq_true hf] at hnone
  exact hnone.symm

theorem TokenList.Members.statements (h : T.Members F s ns i j) :
    T.InTurn i j (ns.map Node.span) := by
  obtain ⟨ms, rfl, -, hms⟩ := h
  refine hms.sublist ?_
  clear hms
  induction ms with
  | nil => exact .slnil
  | cons m ms ih =>
    cases m with
    | inl n => exact ih.cons_cons _
    | inr f => exact ih.cons _

/-- Functions of other scopes make no difference. -/
theorem TokenList.LaysBlock.congr (h : T.LaysBlock F c)
    (hF : F'.filter (·.owner = c.scope) = F.filter (·.owner = c.scope)) : T.LaysBlock F' c := by
  obtain ⟨k, m, hkm, hm, hspan, ms, hns, hms, hturn⟩ := h
  exact ⟨k, m, hkm, hm, hspan, ms, hns, hms.trans hF.symm, hturn⟩

/-- A block that stands as a statement. -/
theorem TokenList.LaysBlock.lays (h : T.LaysBlock F c) : T.Lays (.block c) := by
  obtain ⟨k, m, hkm, hm, hspan, hmembers⟩ := h
  exact ⟨k, m, hkm, hm, hspan, hmembers.statements⟩

end Members

section Run

/-- The trees `os` and those in the bodies of functions. -/
def treesOf (os : List (ScopeId × Node)) (F : List Function) : List (ScopeId × Node) :=
  os ++ F.flatMap (·.body.occurrences)

/-- The blocks that these trees hold, and the bodies. -/
def blocksOf (os : List (ScopeId × Node)) (F : List Function) : List Block :=
  (treesOf os F).flatMap (·.2.bodies) ++ F.map (·.body)

/-- A scope that was opened between two arenas. -/
def Arena.Since (a b : Arena) (t : ScopeId) : Prop :=
  a.scopeCount ≤ t.index ∧ t.index < b.scopeCount

/-- What was read between two arenas: the trees `os`, the blocks `bs`, and all in the functions
declared, which belong to the scope `o` or to new ones. -/
structure Run (T : TokenList) (o : Option ScopeId) (a b : Arena) (os : List (ScopeId × Node))
    (bs : List Block) : Prop where
  trees : ∀ p ∈ treesOf os (a.functionsSince b), T.Lays p.2
  blocks : ∀ c ∈ bs ++ blocksOf os (a.functionsSince b),
    T.LaysBlock (a.functionsSince b) c ∧ a.Since b c.scope
  functions : ∀ f ∈ a.functionsSince b, T.LaysFunction b f ∧ a.Since b f.parameterScope
  owners : ∀ f ∈ a.functionsSince b, some f.owner = o ∨ a.Since b f.owner

variable {o : Option ScopeId} {a b c : Arena} {s : ScopeId} {os os' : List (ScopeId × Node)}
  {bs bs' : List Block} {F F' : List Function} {i j : Nat}

theorem mem_treesOf_append {p : ScopeId × Node} :
    p ∈ treesOf (os ++ os') (F ++ F') ↔ p ∈ treesOf os F ∨ p ∈ treesOf os' F' := by
  simp only [treesOf, List.flatMap_append, List.mem_append]
  tauto

theorem mem_blocksOf_append {c : Block} :
    c ∈ blocksOf (os ++ os') (F ++ F') ↔ c ∈ blocksOf os F ∨ c ∈ blocksOf os' F' := by
  simp only [blocksOf, List.mem_append, List.mem_flatMap, List.map_append, mem_treesOf_append,
    or_and_right, exists_or]
  exact or_or_or_comm

theorem Arena.Since.left (h : a.Since b s) (hbc : b.scopeCount ≤ c.scopeCount) : a.Since c s :=
  ⟨h.1, Nat.lt_of_lt_of_le h.2 hbc⟩

theorem Arena.Since.right (h : b.Since c s) (hab : a.scopeCount ≤ b.scopeCount) : a.Since c s :=
  ⟨Nat.le_trans hab h.1, h.2⟩

/-- Only a scope of before that is current, and new scopes, have functions. -/
theorem Run.owner_ne (h : Run T o a b os bs) (hs : s.index < a.scopeCount) (ho : some s ≠ o) :
    ∀ f ∈ a.functionsSince b, f.owner ≠ s := by
  rintro f hf rfl
  rcases h.owners f hf with howner | hnew
  · exact ho howner
  · exact Nat.not_lt.2 hnew.1 hs

theorem Run.owner_lt (h : Run T o a b os bs)
    (ho : ∀ t : ScopeId, some t = o → t.index < b.scopeCount) :
    ∀ f ∈ a.functionsSince b, f.owner.index < b.scopeCount := fun f hf =>
  (h.owners f hf).elim (ho _) And.right

theorem Run.weaken (h : Run T none a b os bs) (s : ScopeId) : Run T (some s) a b os bs :=
  { h with owners := fun f hf => .inr ((h.owners f hf).resolve_left (Option.some_ne_none _)) }

/-- The parameters of a function are not touched by what is declared elsewhere. -/
theorem TokenList.LaysFunction.grow {f : Function} (h : T.LaysFunction a f) (hc : a.Coherent)
    (hf : Frame o a b) (hq : f.parameterScope.index < a.scopeCount)
    (ho : some f.parameterScope ≠ o) : T.LaysFunction b f := by
  obtain ⟨k, l, m, hkl, hlm, hm, hspan, hbody, hparameters⟩ := h
  refine ⟨k, l, m, hkl, hlm, hm, hspan, hbody, fun v hv => ?_⟩
  rw [(hf.elsewhere hq ho).1] at hv
  obtain ⟨x, hmem⟩ := Bindings.exists_of_mem_ids hv
  rw [hf.variableAt (hc.variableBindings hmem).1]
  exact hparameters v hv

theorem Run.append (h : Run T o a b os bs) (h' : Run T o b c os' bs')
    (ho : ∀ t : ScopeId, some t = o → t.index < a.scopeCount) (hab : Frame o a b)
    (hbc : Frame o b c) (hcb : b.Coherent) : Run T o a c (os ++ os') (bs ++ bs') := by
  have hF := functionsSince_append hab.functionCount hbc
  have hold : ∀ {t : ScopeId}, a.Since b t → some t ≠ o := by
    intro t ht hto
    exact Nat.not_lt.2 ht.1 (ho t hto)
  -- What is declared later belongs to `o` or to newer scopes, and no block of before has these.
  have hfirst : ∀ x : Block, T.LaysBlock (a.functionsSince b) x ∧ a.Since b x.scope →
      T.LaysBlock (a.functionsSince c) x ∧ a.Since c x.scope := by
    rintro x ⟨hx, hnew⟩
    refine ⟨hx.congr ?_, hnew.left hbc.scopeCount⟩
    rw [hF, filter_append_owner (h'.owner_ne hnew.2 (hold hnew))]
  -- The other way round, a later block has a scope that was not there for the functions of before.
  have hsecond : ∀ x : Block, T.LaysBlock (b.functionsSince c) x ∧ b.Since c x.scope →
      T.LaysBlock (a.functionsSince c) x ∧ a.Since c x.scope := by
    rintro x ⟨hx, hnew⟩
    refine ⟨hx.congr ?_, hnew.right hab.scopeCount⟩
    rw [hF, filter_owner_append]
    intro f hf howner
    have hlt := h.owner_lt (fun t ht => Nat.lt_of_lt_of_le (ho t ht) hab.scopeCount) f hf
    exact Nat.not_lt.2 hnew.1 (howner ▸ hlt)
  constructor
  · intro p hp
    rw [hF, mem_treesOf_append] at hp
    exact hp.elim (h.trees p) (h'.trees p)
  · intro x hx
    rw [hF, List.mem_append, List.mem_append, mem_blocksOf_append] at hx
    rcases hx with (hx | hx) | hx | hx
    · exact hfirst x (h.blocks x (List.mem_append_left _ hx))
    · exact hsecond x (h'.blocks x (List.mem_append_left _ hx))
    · exact hfirst x (h.blocks x (List.mem_append_right _ hx))
    · exact hsecond x (h'.blocks x (List.mem_append_right _ hx))
  · intro f hf
    rw [hF] at hf
    rcases List.mem_append.1 hf with hf | hf
    · obtain ⟨hlays, hnew⟩ := h.functions f hf
      exact ⟨hlays.grow hcb hbc hnew.2 (hold hnew), hnew.left hbc.scopeCount⟩
    · exact (h'.functions f hf).imp_right (·.right hab.scopeCount)
  · intro f hf
    rw [hF] at hf
    rcases List.mem_append.1 hf with hf | hf
    · exact (h.owners f hf).imp_right (·.left hbc.scopeCount)
    · exact (h'.owners f hf).imp_right (·.right hab.scopeCount)

theorem forall_some_eq_none {p : ScopeId → Prop} (t : ScopeId) (h : some t = none) : p t :=
  absurd h (Option.some_ne_none t)

/-- Expressions hold no blocks and declare no functions. -/
theorem run_expressions (ho : ∀ p ∈ os, T.Lays p.2) (he : ∀ p ∈ os, p.2.isExpression)
    (hf : b.declaredFunctions = a.declaredFunctions) : Run T o a b os [] := by
  have hF := functionsSince_of_eq hf
  have hnone : os.flatMap (·.2.bodies) = [] := by
    rw [List.flatMap_eq_nil_iff]
    rintro ⟨s, n⟩ hp
    have hn := he _ hp
    cases n <;> first | rfl | contradiction
  constructor
  · rw [hF, treesOf, List.flatMap_nil, List.append_nil]
    exact ho
  · rw [hF, blocksOf, treesOf, List.flatMap_nil, List.append_nil, hnone]
    exact List.forall_mem_nil _
  · rw [hF]
    exact List.forall_mem_nil _
  · rw [hF]
    exact List.forall_mem_nil _

theorem run_nothing : Run T o a a [] [] :=
  run_expressions (List.forall_mem_nil _) (List.forall_mem_nil _) rfl

/-- A tree around trees and blocks. -/
theorem Run.cons {n : Node} (h : Run T o a b os bs) (s : ScopeId) (hn : T.Lays n)
    (hbodies : n.bodies = bs) : Run T o a b ((s, n) :: os) [] :=
  { h with
    trees := fun p hp => by
      rcases List.mem_cons.1 hp with rfl | hp
      · exact hn
      · exact h.trees p hp
    blocks := fun x hx => by
      refine h.blocks x ?_
      rw [← hbodies]
      simpa [blocksOf, treesOf, or_assoc] using hx }

/-- An expression in front of a block. -/
theorem Run.behind {n : Node} {block : Block} (hn : Placed T a s i n j)
    (hn' : ∀ p ∈ n.occurrences s, T.Lays p.2) (hf : Frame none a b) (hc : a.Coherent)
    (h : Run T none a b block.occurrences bs) :
    Run T none a b (n.occurrences s ++ block.occurrences) bs :=
  (run_expressions hn' hn.expressions rfl).append h forall_some_eq_none (.refl _ _) hf hc

/-- A statement that stands in a block of scope `s`. -/
theorem Run.statement {n : Node} (h : Run T none a b (n.occurrences s) [])
    (hs : s.index < a.scopeCount) (hn : T.Spans i j n.span) :
    Run T (some s) a b (occurrencesOf s (some n).toList) [] ∧
      T.Members (a.functionsSince b) s (some n).toList i j := by
  rw [Option.toList, occurrencesOf_singleton]
  exact ⟨h.weaken s, members_statement (h.owner_ne hs (Option.some_ne_none s)) hn⟩

/-- A statement that ends with its last part. -/
theorem Run.last {n : Node} {ts : List Span} {t : Span} {k l : Nat} (h : Run T none a b os bs)
    (hs : s.index < a.scopeCount) (hfirst : T.InTurn i j ts) (hlast : T.Spans j k t)
    (hk : k ≤ T.size) (hkl : k ≤ l) (hn : n.occurrences s = (s, n) :: os) (hbodies : n.bodies = bs)
    (hspan : n.span = ⟨(T.get i).location, t.finish⟩) (hparts : n.partSpans = ts ++ [t]) :
    Run T (some s) a b (occurrencesOf s (some n).toList) [] ∧
      T.Members (a.functionsSince b) s (some n).toList i l := by
  obtain ⟨hlays, hwhole⟩ := lays_last hfirst hlast hk hspan hparts
  have hrun := h.cons s hlays hbodies
  rw [← hn] at hrun
  exact hrun.statement hs (hwhole.mono (Nat.le_refl _) hkl)

/-- What is read in a new scope is a block when that is closed. -/
theorem Run.close {q : ScopeId} {block : Block} (h : Run T (some q) b c os [])
    (hp : ScopePushed a s q b) (hbc : b.scopeCount ≤ c.scopeCount) (hscope : block.scope = q)
    (hblock : T.LaysBlock (b.functionsSince c) block) : Run T none a c os [block] := by
  have hF : a.functionsSince c = b.functionsSince c := by
    rw [functionsSince, functionsSince, hp.declaredFunctions]
  have hab : a.scopeCount ≤ b.scopeCount := by
    rw [hp.scopeCount]
    exact Nat.le_succ _
  have hq : a.Since c q := ⟨Nat.le_of_eq hp.id.symm, Nat.lt_of_lt_of_le hp.lt hbc⟩
  constructor
  · rw [hF]
    exact h.trees
  · rw [hF]
    intro x hx
    rcases List.mem_cons.1 hx with rfl | hx
    · exact ⟨hblock, hscope ▸ hq⟩
    · exact (h.blocks x hx).imp_right (·.right hab)
  · rw [hF]
    exact fun f hf => (h.functions f hf).imp_right (·.right hab)
  · rw [hF]
    intro f hf
    rcases h.owners f hf with howner | hnew
    · rw [Option.some.inj howner]
      exact .inr hq
    · exact .inr (hnew.right hab)

end Run

section Parameters

variable {i j : Nat} {a b : Arena} {q : ScopeId} {ps : List (ValueType × Token)}

theorem ParametersAt.slots (h : ParametersAt T i ps j) :
    ∀ p ∈ ps, ∃ k, i ≤ k ∧ k < j ∧ p.2 = T.get k := by
  induction h with
  | done _ => exact List.forall_mem_nil _
  | more _ _ _ hs hps ih =>
    have hle := hs.le
    have hlt := hps.lt
    intro p hp
    rcases List.mem_cons.1 hp with rfl | hp
    · exact ⟨_, Nat.le_succ _, by omega, rfl⟩
    · obtain ⟨k, hk, hkj, hget⟩ := ih p hp
      exact ⟨k, by omega, hkj, hget⟩

/-- The variables of the scope were there before, or stand where one of the parameters does. -/
theorem DefinesAll.locations (h : DefinesAll q a ps b) (hc : a.Coherent)
    (hq : q.index < a.scopeCount) : ∀ v ∈ (b.scopeAt q).variableBindings.ids,
      v ∈ (a.scopeAt q).variableBindings.ids ∨
        ∃ p ∈ ps, (b.variableAt v).location = p.2.location := by
  induction h with
  | nil => exact fun v hv => .inl hv
  | @cons a t name x b ps c hd hps ih =>
    have hd := variableDefined hd
    obtain ⟨hcb, hqb, -, hx⟩ := hps.keeps_first hd hc hq
    intro v hv
    rcases ih hcb hqb v hv with hold | ⟨p, hp, hlocation⟩
    · rw [hd.bound hq, Bindings.ids, Bindings.entries_bind hd.free, List.map_append] at hold
      rcases List.mem_append.1 hold with hold | hnew
      · exact .inl hold
      · obtain rfl : v = x := List.mem_singleton.1 hnew
        exact .inr ⟨(t, name), List.mem_cons_self, congrArg Variable.location hx⟩
    · exact .inr ⟨p, List.mem_cons_of_mem _ hp, hlocation⟩

/-- The names of the parameters stand in the head of the function. -/
theorem HeadAt.parameterSlots {s i a g f q j d} (h : HeadAt T s i a g f q j d) (hc : a.Coherent)
    (hs : s.index < a.scopeCount) : ∀ v ∈ (d.scopeAt q).variableBindings.ids,
      ∃ k, i < k ∧ k < j ∧ (d.variableAt v).location = (T.get k).location := by
  cases h with
  | @mk t ps j q b c f d _ _ _ _ hps hp hdefines hd =>
    have hp := scopePushed hp hs
    have hd := functionDefined hd
    intro v hv
    rw [hd.elsewhere (hp.ne_new hs).symm] at hv
    rw [variableAt_congr hd.declaredVariables]
    rcases hdefines.locations (hc.pushScope hp) hp.lt v hv with hold | ⟨p, hmem, hlocation⟩
    · rw [hp.new] at hold
      exact absurd hold List.not_mem_nil
    · obtain ⟨k, hk, hkj, hget⟩ := hps.slots p hmem
      exact ⟨k, by omega, hkj, by rw [hlocation, hget]⟩

end Parameters

section Function

variable {a c d : Arena} {s q : ScopeId} {i j k : Nat} {g : Signature} {f : FunctionId}
  {block : Block}

/-- The parameters stand in front of the body, with which the function ends. -/
theorem HeadAt.lays (hh : HeadAt T s i a g f q j d) (hc : a.Coherent) (hs : s.index < a.scopeCount)
    (hf : Frame none d c) (hspan : T.Spans j k block.span) (hk : k ≤ T.size) :
    T.LaysFunction c ⟨g, s, q, block, ⟨(T.get i).location, block.span.finish⟩⟩ ∧
      T.Spans i k ⟨(T.get i).location, block.span.finish⟩ := by
  have hd := hh.declared hc hs
  have hij := hh.lt
  obtain ⟨l, m, hl, hlm, hm, hbody⟩ := hspan
  have hwhole : (⟨(T.get i).location, block.span.finish⟩ : Span) = T.span i m := by
    rw [hbody]
    rfl
  refine ⟨⟨i, l, m, by omega, hlm, by omega, hwhole, hbody, fun v hv => ?_⟩,
    i, m, Nat.le_refl _, by omega, hm, hwhole⟩
  -- Nothing that the body declares belongs to the scope of the parameters.
  rw [(hf.elsewhere hd.lt (Option.some_ne_none q)).1] at hv
  obtain ⟨x, hmem⟩ := Bindings.exists_of_mem_ids hv
  obtain ⟨y, hiy, hyj, hlocation⟩ := hh.parameterSlots hc hs v hv
  rw [hf.variableAt (hd.coherent.variableBindings hmem).1]
  exact ⟨y, hiy, by omega, hlocation⟩

/-- A function is declared with its body, and with all that the body declares. -/
theorem Run.function (h : Run T none d c block.occurrences [block]) (hh : HeadAt T s i a g f q j d)
    (hc : a.Coherent) (hs : s.index < a.scopeCount) (hf : Frame none d c)
    (hspan : T.Spans j k block.span) (hk : k ≤ T.size) :
    Run T (some s) a (c.setBody f block ⟨(T.get i).location, block.span.finish⟩) [] [] ∧
      T.Members (a.functionsSince (c.setBody f block ⟨(T.get i).location, block.span.finish⟩)) s
        [] i k := by
  have hd := hh.declared hc hs
  obtain ⟨hlays, hwhole⟩ := hh.lays hc hs hf hspan hk
  have hsd : s.index < d.scopeCount := Nat.lt_of_lt_of_le hs hd.frame.scopeCount
  have hq : a.Since c q := ⟨Nat.le_of_eq hd.scope.symm, Nat.lt_of_lt_of_le hd.lt hf.scopeCount⟩
  have hnew : ∀ {t}, d.Since c t → a.Since c t := (·.right hd.frame.scopeCount)
  rw [hd.functionsSince hf]
  refine ⟨⟨?_, ?_, ?_, ?_⟩, members_function rfl (h.owner_ne hsd (Option.some_ne_none s)) hwhole⟩
  all_goals rw [hd.functionsSince hf]
  · exact h.trees
  · intro x hx
    have hmem : x ∈ [block] ++ blocksOf block.occurrences (d.functionsSince c) := by
      simp only [blocksOf, treesOf, List.map_cons, List.flatMap_cons, List.mem_append,
        List.mem_cons] at hx ⊢
      tauto
    obtain ⟨hblock, hscope⟩ := h.blocks x hmem
    -- No block in the function has scope `s`, to which the function belongs.
    have hne : s ≠ x.scope := fun he => Nat.not_lt.2 hscope.1 (he ▸ hsd)
    refine ⟨hblock.congr ?_, hnew hscope⟩
    rw [List.filter_cons, decide_eq_false hne]
    rfl
  · intro x hx
    rcases List.mem_cons.1 hx with rfl | hx
    · exact ⟨hlays, hq⟩
    · exact (h.functions x hx).imp_right hnew
  · intro x hx
    rcases List.mem_cons.1 hx with rfl | hx
    · exact .inl rfl
    · exact .inr (hnew ((h.owners x hx).resolve_left (Option.some_ne_none _)))

/-- The body of a function that calls out. -/
theorem run_native {target : String} {r : ScopeId} (hp : ScopePushed d q r c)
    (hj : j + 2 < T.size) :
    Run T none d c (nativeBlock g target r (T.span j (j + 2))).occurrences
        [nativeBlock g target r (T.span j (j + 2))] ∧
      T.Spans j (j + 3) (nativeBlock g target r (T.span j (j + 2))).span := by
  have hwhole : T.Spans j (j + 3) (T.span j (j + 2)) :=
    ⟨j, j + 2, Nat.le_refl _, by omega, Nat.lt_succ_self _, rfl⟩
  have hlays : T.Lays (.nativeCall g target (T.span j (j + 2))) :=
    ⟨j, j + 2, by omega, hj, rfl, .nil (by omega)⟩
  have hrun : Run T (some r) c c [] [] := run_nothing
  refine ⟨(hrun.cons r hlays rfl).close hp (Nat.le_refl _) rfl ?_, hwhole⟩
  refine ⟨j, j + 2, by omega, hj, rfl, members_statement ?_ hwhole⟩
  rw [functionsSince_of_eq rfl]
  exact List.forall_mem_nil _

end Function

mutual

/-- What a statement declares and holds lies as it should, and the statement or the function stands
at the slots that were read. -/
theorem StatementAt.lays {s i a c o j b} (h : StatementAt T s i a c o j b) (hc : a.Coherent)
    (hs : s.index < a.scopeCount) :
    Run T (some s) a b (occurrencesOf s o.toList) [] ∧
      T.Members (a.functionsSince b) s o.toList i j := by
  match h with
  | .expression _ _ h _ =>
    exact (run_expressions h.lays h.placed.expressions rfl).statement hs
      (h.placed.spans.mono (Nat.le_refl _) (Nat.le_succ _))
  | .declare _ _ _ _ h hd _ =>
    have hsame := (variableDefined hd).declaredFunctions
    exact (run_expressions h.lays h.placed.expressions hsame).last hs (.nil (by omega))
      h.placed.spans h.le_size (Nat.le_succ _) rfl rfl rfl rfl
  | .assign _ _ _ h _ | .giveBack _ h _ =>
    exact (run_expressions h.lays h.placed.expressions rfl).last hs (.nil (by omega))
      h.placed.spans h.le_size (Nat.le_succ _) rfl rfl rfl rfl
  | .print _ _ h hj =>
    -- The tree ends at the closing parenthesis, which is behind its last part.
    obtain ⟨⟨m, rfl, rfl, hm⟩, hmembers⟩ := h.lays
    obtain ⟨_, _, _, _, hw⟩ := h.placed
    have hle := hm.le
    have hsize := lt_size_of_kind hj (by decide)
    have hrun : Run T none a a _ [] :=
      run_expressions hmembers (fun p hp => (hw p hp).expression) rfl
    have hlays : T.Lays (.print _ ⟨(T.get i).location, (T.get m).location⟩) :=
      ⟨i, m, by omega, by omega, rfl, (hm.before (by omega)).behind (Nat.le_succ _)⟩
    exact (hrun.cons s hlays rfl).statement hs ⟨i, m, Nat.le_refl _, by omega, by omega, rfl⟩
  | .giveBackNothing hi _ =>
    have hlays : T.Lays (.giveBack none (.single (T.get i).location)) :=
      lays_leaf (lt_size_of_kind hi (by decide)) rfl rfl
    have hrun : Run T none a a [] [] := run_nothing
    exact (hrun.cons s hlays rfl).statement hs (spans_single (Nat.le_refl _) (by omega))
  | .block hb =>
    obtain ⟨hrun, hspan⟩ := hb.lays hc hs
    have hblock := (hrun.blocks _ List.mem_cons_self).1
    exact (hrun.cons s hblock.lays rfl).statement hs hspan
  | .branch _ _ h _ hb _ | .whileLoop _ _ h _ hb | .forLoop _ _ _ _ _ h _ hb =>
    obtain ⟨hf, _⟩ := hb.frame hc hs
    obtain ⟨hrun, hspan⟩ := hb.lays hc hs
    have hcondition : T.Spans i _ _ := h.placed.spans.mono (by omega) (Nat.le_succ _)
    exact (hrun.behind h.placed h.lays hf hc).last hs (.single hcondition) hspan hb.le_size
      (Nat.le_refl _) rfl rfl rfl rfl
  | .branchElse _ _ h _ hb _ hb' =>
    obtain ⟨hf, hcb⟩ := hb.frame hc hs
    have hsb := Nat.lt_of_lt_of_le hs hf.scopeCount
    obtain ⟨hf', _⟩ := hb'.frame hcb hsb
    obtain ⟨hrun, hspan⟩ := hb.lays hc hs
    obtain ⟨hrun', hspan'⟩ := hb'.lays hcb hsb
    have hcondition : T.Spans i _ _ := h.placed.spans.mono (by omega) (Nat.le_succ _)
    have hthen := InTurn.single (hspan.mono (Nat.le_refl _) (Nat.le_succ _))
    have hboth := (hrun.behind h.placed h.lays hf hc).append hrun' forall_some_eq_none hf hf' hcb
    exact hboth.last hs (.cons hcondition hthen) hspan' hb'.le_size (Nat.le_refl _) rfl rfl rfl rfl
  | .function hh hb =>
    -- The body is read in the scope of the parameters and leaves nothing in `s`.
    have hd := hh.declared hc hs
    obtain ⟨hf, _⟩ := hb.frame hd.coherent hd.lt
    obtain ⟨hrun, hspan⟩ := hb.lays hd.coherent hd.lt
    exact hrun.function hh hc hs hf hspan hb.le_size
  | .native hh _ _ hm hr =>
    have hd := hh.declared hc hs
    obtain ⟨hrun, hspan⟩ := run_native (scopePushed hr hd.lt) (lt_size_of_symbol hm)
    exact hrun.function hh hc hs (.pushScope (scopePushed hr hd.lt)) hspan (lt_size_of_symbol hm)

theorem ItemsAt.lays {s i a cs ns j b} (h : ItemsAt T s i a cs ns j b) (hc : a.Coherent)
    (hs : s.index < a.scopeCount) :
    Run T (some s) a b (occurrencesOf s ns) [] ∧ T.Members (a.functionsSince b) s ns i j := by
  match h with
  | .nil =>
    refine ⟨run_nothing, [], rfl, ?_, .nil (Nat.le_refl _)⟩
    rw [functionsSince_of_eq rfl]
    rfl
  | .semicolon _ h =>
    obtain ⟨hrun, ms, hns, hF, hms⟩ := h.lays hc hs
    exact ⟨hrun, ms, hns, hF, hms.before (Nat.le_succ _)⟩
  | .cons h ht =>
    obtain ⟨hf, hcb⟩ := h.frame hc hs
    have hsb := Nat.lt_of_lt_of_le hs hf.scopeCount
    obtain ⟨hf', _⟩ := ht.frame hcb hsb
    obtain ⟨hrun, hmembers⟩ := h.lays hc hs
    obtain ⟨hrun', hmembers'⟩ := ht.lays hcb hsb
    rw [occurrencesOf_append, functionsSince_append hf.functionCount hf']
    refine ⟨hrun.append hrun' (fun t ht => ?_) hf hf' hcb, hmembers.append hmembers'⟩
    rwa [Option.some.inj ht]

theorem BlockAt.lays {s i a cs block j b} (h : BlockAt T s i a cs block j b) (hc : a.Coherent)
    (hs : s.index < a.scopeCount) :
    Run T none a b block.occurrences [block] ∧ T.Spans i j block.span := by
  match h with
  | .mk (j := l) _ hp h hl =>
    have hil := h.le
    have hp := scopePushed hp hs
    obtain ⟨hf, _⟩ := h.frame (hc.pushScope hp) hp.lt
    obtain ⟨hrun, ms, hns, hF, hms⟩ := h.lays (hc.pushScope hp) hp.lt
    refine ⟨hrun.close hp hf.scopeCount rfl ⟨i, l, by omega, lt_size_of_symbol hl, rfl, ?_⟩,
      i, l, Nat.le_refl _, by omega, Nat.lt_succ_self _, rfl⟩
    exact ⟨ms, hns, hF, (hms.before (Nat.le_succ _)).behind (Nat.le_succ _)⟩

end

end ScriptSyntax
