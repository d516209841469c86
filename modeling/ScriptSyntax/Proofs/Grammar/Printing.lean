import ScriptSyntax.Proofs.Grammar.Reading

/-!
A program is printed as what its text says: each tree as its expression or statement, and each
function, which has no tree, in its place among the statements.
-/

namespace ScriptSyntax

open Arena Piece

variable {T : TokenList} {A a b c : Arena}

/-- The final arena `A` has what was declared by the end of reading from `a` to `b`. -/
structure Agrees (A a b : Arena) : Prop where
  variableAt : ∀ {v : VariableId}, v.index < b.declaredVariables.size →
    A.variableAt v = b.variableAt v
  functionAt : ∀ {f : FunctionId}, a.declaredFunctions.size ≤ f.index →
    f.index < b.declaredFunctions.size → A.functionAt f = b.functionAt f
  functionBindings : ∀ {t : ScopeId}, a.scopeCount ≤ t.index → t.index < b.scopeCount →
    (A.scopeAt t).functionBindings = (b.scopeAt t).functionBindings

namespace Agrees

/-- What was declared by a first part is what was declared by the whole. -/
theorem first {s : ScopeId} (h : Agrees A a c) (hbc : Frame (some s) b c)
    (hs : s.index < a.scopeCount) : Agrees A a b where
  variableAt hv :=
    (h.variableAt (Nat.lt_of_lt_of_le hv hbc.variableCount)).trans (hbc.variableAt hv)
  functionAt hf hf' :=
    (h.functionAt hf (Nat.lt_of_lt_of_le hf' hbc.functionCount)).trans (hbc.functionAt hf')
  functionBindings {t} ht ht' := by
    have hts : some t ≠ some s := fun hts => by cases hts; omega
    exact (h.functionBindings ht (Nat.lt_of_lt_of_le ht' hbc.scopeCount)).trans
      (hbc.elsewhere ht' hts).2

theorem rest {o : Option ScopeId} (h : Agrees A a c) (hab : Frame o a b) : Agrees A b c where
  variableAt := h.variableAt
  functionAt hf := h.functionAt (Nat.le_trans hab.functionCount hf)
  functionBindings ht := h.functionBindings (Nat.le_trans hab.scopeCount ht)

theorem none {o : Option ScopeId} (h : Agrees A a b) (hab : Frame o a b) : Agrees A a a where
  variableAt hv :=
    (h.variableAt (Nat.lt_of_lt_of_le hv hab.variableCount)).trans (hab.variableAt hv)
  functionAt h h' := by omega
  functionBindings h h' := by omega

end Agrees

variable {l : Layout}

/-- A variable that was found by a name is printed as that name. -/
theorem variableName_of_lookup {s : ScopeId} {x : String} {v : VariableId}
    (hA : Agrees l.arena a a) (hc : a.Coherent) (h : a.lookupVariable? s x = some v) :
    l.variableName v = name x := by
  obtain ⟨t, _, hget⟩ := List.exists_of_findSome?_eq_some h
  obtain ⟨hlt, hname, _⟩ := hc.variableBindings (Bindings.mem_of_get? hget)
  rw [Layout.variableName, hA.variableAt hlt, hname]

mutual

theorem OperandAt.pieces {s i e n j depth} (h : OperandAt T a s i e n j)
    (hA : Agrees l.arena a a) (hc : a.Coherent) : l.node depth n = e.pieces := by
  match h with
  | .int _ _ | .double _ _ | .string _ => rw [Layout.node, Phrase.pieces]
  | .load _ _ hx =>
    rw [Layout.node, Phrase.pieces, variableName_of_lookup hA hc hx]
  | .call _ _ h => rw [Layout.node, Phrase.pieces, h.pieces hA hc]
  | .unary _ h => rw [Layout.node, Phrase.pieces, h.pieces hA hc]
  | .parenthesised _ h _ => exact h.pieces hA hc

theorem ChainAt.pieces {s least i e n j depth} (h : ChainAt T a s least i e n j)
    (hA : Agrees l.arena a a) (hc : a.Coherent) : l.node depth n = e.pieces := by
  match h with
  | .mk h₀ h₁ => exact h₁.pieces hA hc (h₀.pieces hA hc)

theorem ClimbAt.pieces {s least i e₀ n₀ e n j depth} (h : ClimbAt T a s least i e₀ n₀ e n j)
    (hA : Agrees l.arena a a) (hc : a.Coherent) (h₀ : l.node depth n₀ = e₀.pieces) :
    l.node depth n = e.pieces := by
  match h with
  | .done _ => exact h₀
  | .more _ _ h₁ h₂ =>
    refine h₂.pieces hA hc ?_
    rw [Layout.node, Phrase.pieces, h₀, h₁.pieces hA hc]

theorem ArgumentsAt.pieces {s i es ns m j depth} (h : ArgumentsAt T a s i es ns m j)
    (hA : Agrees l.arena a a) (hc : a.Coherent) : l.nodes depth ns = Phrase.piecesOf es := by
  match h with
  | .done _ => rw [Layout.nodes, Phrase.piecesOf]
  | .more h _ ht => rw [Layout.nodes, Phrase.piecesOf, h.pieces hA hc, ht.pieces hA hc]

end

theorem Node.isCompound_of_isExpression {n : Node} (h : n.isExpression) : n.isCompound = false := by
  cases n <;> first | rfl | exact nomatch h

mutual

theorem OperandAt.isExpression {s i e n j} (h : OperandAt T a s i e n j) : n.isExpression := by
  match h with
  | .int _ _ | .double _ _ | .string _ | .load _ _ _ | .call _ _ _ | .unary _ _ => rfl
  | .parenthesised _ h _ => exact h.isExpression

theorem ChainAt.isExpression {s least i e n j} (h : ChainAt T a s least i e n j) :
    n.isExpression := by
  match h with
  | .mk h₀ h₁ => exact h₁.isExpression h₀.isExpression

theorem ClimbAt.isExpression {s least i e₀ n₀ e n j} (h : ClimbAt T a s least i e₀ n₀ e n j)
    (h₀ : n₀.isExpression) : n.isExpression := by
  match h with
  | .done _ => exact h₀
  | .more _ _ _ h => exact h.isExpression rfl

end

/-- A tree of a statement begins inside the statement, and calls out in no native function. -/
theorem StatementAt.node {s i c n j} (h : StatementAt T s i a c (some n) j b) :
    (∃ k, i ≤ k ∧ k < j ∧ n.span.start = (T.get k).location) ∧
      ∀ g t m, n ≠ .nativeCall g t m := by
  have hlt := h.lt
  have hself : ∀ {n : Node}, n.span.start = (T.get i).location →
      ∃ k, i ≤ k ∧ k < j ∧ n.span.start = (T.get k).location := fun hs =>
    ⟨i, Nat.le_refl _, hlt, hs⟩
  cases h with
  | expression _ _ h _ =>
    obtain ⟨k, m, hk, hkm, hm, hs, _⟩ := h.placed
    refine ⟨⟨k, hk, by omega, hs⟩, fun g t m hn => ?_⟩
    have := h.isExpression
    rw [hn] at this
    exact nomatch this
  | block h => exact ⟨hself h.start, nofun⟩
  | _ => exact ⟨hself rfl, nofun⟩

namespace Layout

variable {depth : Nat} {fs : List FunctionId}

/-- A function in front of all the statements that are left. -/
theorem statements_cons_function {f : FunctionId} {ns : List Node}
    (h : ∀ n ∈ ns, (l.arena.functionAt f).span.start < n.span.start) :
    l.statements depth (f :: fs) ns = l.function depth f ++ l.statements depth fs ns := by
  cases ns with
  | nil => rw [statements, statements, List.flatMap_cons]
  | cons n ns =>
    have hf := h n List.mem_cons_self
    simp only [statements, List.takeWhile_cons, List.dropWhile_cons, hf, decide_true, ↓reduceIte,
      List.flatMap_cons, List.append_assoc]

/-- A statement in front of all the functions that are left. -/
theorem statements_cons_node {n : Node} {ns : List Node}
    (h : ∀ f ∈ fs, ¬ (l.arena.functionAt f).span.start < n.span.start) :
    l.statements depth fs (n :: ns) = indent depth :: l.node depth n ++
      (if n.isCompound then [newline] else [symbol .semicolon, newline]) ++
      l.statements depth fs ns := by
  cases fs with
  | nil => simp [statements]
  | cons f fs =>
    have hf := h f List.mem_cons_self
    simp only [statements, List.takeWhile_cons, List.dropWhile_cons, hf, decide_false,
      Bool.false_eq_true, ↓reduceIte, List.flatMap_nil, List.nil_append]

end Layout

theorem ItemsAt.node {s i a cs ns j b n} (h : ItemsAt T s i a cs ns j b) (hn : n ∈ ns) :
    (∃ k, i ≤ k ∧ k < j ∧ n.span.start = (T.get k).location) ∧
      ∀ g t m, n ≠ .nativeCall g t m := by
  match h, hn with
  | .semicolon _ h, hn =>
    obtain ⟨⟨k, hk, hk', hs⟩, hnative⟩ := h.node hn
    exact ⟨⟨k, Nat.le_of_succ_le hk, hk', hs⟩, hnative⟩
  | .cons (n := o) h ht, hn =>
    have hlt := h.lt
    have hle := ht.le
    rcases List.mem_append.1 hn with hn | hn
    · obtain rfl : o = some n := Option.mem_toList.1 hn
      obtain ⟨⟨k, hk, hk', hs⟩, hnative⟩ := h.node
      exact ⟨⟨k, hk, Nat.lt_of_lt_of_le hk' hle, hs⟩, hnative⟩
    · obtain ⟨⟨k, hk, hk', hs⟩, hnative⟩ := ht.node hn
      exact ⟨⟨k, Nat.le_of_lt (Nat.lt_of_lt_of_le hlt hk), hk', hs⟩, hnative⟩

/-- Trees as they are printed where functions nest no deeper than `nesting`. -/
def Arena.layoutAt (A : Arena) (nesting : Nat) : Layout := ⟨A, A.functionPieces nesting⟩

theorem Agrees.inside {s i g f q d block span} (h : Agrees A a (c.setBody f block span))
    (hd : HeadDeclared T s i a g f q d) : Agrees A d c where
  variableAt := h.variableAt
  functionAt {f'} hf hf' := by
    have := hd.id
    have := hd.functionCount
    rw [h.functionAt (by omega) (by rw [setBody_size]; exact hf'), functionAt_setBody, if_neg]
    rintro ⟨rfl, _⟩
    omega
  functionBindings ht := h.functionBindings (Nat.le_trans hd.frame.scopeCount ht)

/-- A function in the finished program. -/
theorem HeadDeclared.final {s i g f q d block span} (hd : HeadDeclared T s i a g f q d)
    {o : Option ScopeId} (hf : Frame o d c) (hA : Agrees A a (c.setBody f block span)) :
    A.functionAt f = ⟨g, s, q, block, span⟩ := by
  have := hd.id
  have := hd.functionCount
  have := hf.functionCount
  rw [hA.functionAt (by omega) (by rw [setBody_size]; omega), functionAt_setBody,
    if_pos ⟨rfl, by omega⟩, hf.functionAt (by omega), hd.head]
  rfl

theorem functionPieces_of_block {nesting depth : Nat} {f : FunctionId} {x : Function}
    (hf : A.functionAt f = x) (hx : ∀ g t m, x.body.body ≠ [.nativeCall g t m]) :
    A.functionPieces (nesting + 1) depth f = indent depth :: x.signature.pieces ++
      ((A.layoutAt nesting).block depth x.body ++ [newline]) := by
  rw [functionPieces, hf]
  split
  · next h => exact (hx _ _ _ h).elim
  · rfl

theorem BlockAt.not_native {s i cs block j} (h : BlockAt T s i a cs block j b) (g t m) :
    block.body ≠ [.nativeCall g t m] := by
  cases h with
  | mk _ _ h _ =>
    rintro rfl
    exact (h.node List.mem_cons_self).2 g t m rfl

/-- How the clause `c` shows in the finished program: as a tree, or as a function that its scope
binds behind all others. -/
def StatementPrinted (T : TokenList) (A : Arena) (nesting depth : Nat) (s : ScopeId) (i : Nat)
    (a : Arena) (c : Clause) (b : Arena) : Option Node → Prop
  | some n => (b.scopeAt s).functionBindings.entries = (a.scopeAt s).functionBindings.entries ∧
    indent depth :: (A.layoutAt nesting).node depth n ++
      (if n.isCompound then [newline] else [symbol .semicolon, newline]) = c.pieces depth
  | none => ∃ e, (b.scopeAt s).functionBindings.entries =
      (a.scopeAt s).functionBindings.entries ++ [e] ∧
    (A.functionAt e.2).span.start = (T.get i).location ∧
    A.functionPieces nesting depth e.2 = c.pieces depth

mutual

theorem StatementAt.pieces {s i a c o j b} (h : StatementAt T s i a c o j b) (hT : T.Ordered)
    (hA : Agrees A a b) (hc : a.Coherent) (hs : s.index < a.scopeCount) (nesting depth : Nat)
    (hn : b.declaredFunctions.size ≤ nesting + a.declaredFunctions.size) :
    StatementPrinted T A nesting depth s i a c b o := by
  match h with
  | .expression _ _ h _ =>
    refine ⟨rfl, ?_⟩
    rw [Clause.pieces, h.pieces hA hc, Node.isCompound_of_isExpression h.isExpression]
    rfl
  | .declare _ _ _ _ h hd _ =>
    have hd := variableDefined hd
    have hv := (hA.variableAt hd.lt).trans hd.stored
    refine ⟨by rw [hd.bound hs], ?_⟩
    rw [Clause.pieces, Layout.node, h.pieces (hA.none (.defineVariable hd)) hc]
    simp only [Layout.variableName, layoutAt, hv]
    rfl
  | .assign _ hx _ h _ =>
    refine ⟨rfl, ?_⟩
    rw [Clause.pieces, Layout.node, h.pieces hA hc,
      variableName_of_lookup (l := A.layoutAt nesting) hA hc hx]
    rfl
  | .print _ _ h _ =>
    refine ⟨rfl, ?_⟩
    rw [Clause.pieces, Layout.node, h.pieces hA hc]
    simp [Node.isCompound]
  | .giveBackNothing _ _ =>
    refine ⟨rfl, ?_⟩
    rw [Clause.pieces, Layout.node]
    rfl
  | .giveBack _ h _ =>
    refine ⟨rfl, ?_⟩
    rw [Clause.pieces, Layout.node, h.pieces hA hc]
    rfl
  | .block hb =>
    obtain ⟨hf, _⟩ := hb.frame hc hs
    refine ⟨by rw [(hf.elsewhere hs nofun).2], ?_⟩
    rw [Clause.pieces, Layout.node, hb.pieces hT hA hc hs nesting depth hn]
    rfl
  | .branch _ _ h _ hb _ | .whileLoop _ _ h _ hb =>
    obtain ⟨hf, _⟩ := hb.frame hc hs
    refine ⟨by rw [(hf.elsewhere hs nofun).2], ?_⟩
    rw [Clause.pieces, Layout.node, h.pieces (hA.none hf) hc,
      hb.pieces hT hA hc hs nesting depth hn]
    rfl
  | .branchElse (b := d) _ _ h _ hb _ hb' =>
    obtain ⟨hf, hcd⟩ := hb.frame hc hs
    have hsd := Nat.lt_of_lt_of_le hs hf.scopeCount
    obtain ⟨hf', _⟩ := hb'.frame hcd hsd
    have hA₁ : Agrees A a d := hA.first (hf'.weaken (some s)) hs
    have hA₂ : Agrees A d b := hA.rest hf
    refine ⟨by rw [(hf'.elsewhere hsd nofun).2, (hf.elsewhere hs nofun).2], ?_⟩
    have := hf.functionCount
    have := hf'.functionCount
    rw [Clause.pieces, Layout.node, h.pieces (hA₁.none hf) hc,
      hb.pieces hT hA₁ hc hs nesting depth (by omega),
      hb'.pieces hT hA₂ hcd hsd nesting depth (by omega)]
    simp [Node.isCompound]
  | .forLoop _ _ _ hx _ h _ hb =>
    obtain ⟨hf, _⟩ := hb.frame hc hs
    refine ⟨by rw [(hf.elsewhere hs nofun).2], ?_⟩
    rw [Clause.pieces, Layout.node, h.pieces (hA.none hf) hc,
      hb.pieces hT hA hc hs nesting depth hn,
      variableName_of_lookup (l := A.layoutAt nesting) (hA.none hf) hc hx]
    rfl
  | .function (b := d) (c := c) hh hb =>
    -- One function fewer can nest inside this one, which pays for the level its body takes.
    have hd := hh.declared hc hs
    obtain ⟨hf, _⟩ := hb.frame hd.coherent hd.lt
    have hbound := (hf.elsewhere (Nat.lt_of_lt_of_le hs hd.frame.scopeCount) nofun).2
    have hfun := hd.final hf hA
    rw [setBody_size] at hn
    have := hd.functionCount
    have := hf.functionCount
    obtain ⟨m, rfl⟩ : ∃ m, nesting = m + 1 := ⟨nesting - 1, by omega⟩
    refine ⟨_, (congrArg Bindings.entries hbound).trans hd.bound, by rw [hfun], ?_⟩
    rw [functionPieces_of_block hfun hb.not_native,
      hb.pieces hT (hA.inside hd) hd.coherent hd.lt m depth (by omega), Clause.pieces,
      List.append_assoc]
  | .native (b := d) (c := c) hh _ _ _ hr =>
    have hd := hh.declared hc hs
    have hr := scopePushed hr hd.lt
    have hf := Frame.pushScope hr
    have hbound := (hf.elsewhere (Nat.lt_of_lt_of_le hs hd.frame.scopeCount) nofun).2
    have hfun := hd.final hf hA
    rw [setBody_size] at hn
    have := hd.functionCount
    have := hf.functionCount
    obtain ⟨m, rfl⟩ : ∃ m, nesting = m + 1 := ⟨nesting - 1, by omega⟩
    refine ⟨_, (congrArg Bindings.entries hbound).trans hd.bound, by rw [hfun], ?_⟩
    rw [functionPieces, hfun, Clause.pieces]
    rfl

theorem ItemsAt.pieces {s i a cs ns j b} (h : ItemsAt T s i a cs ns j b) (hT : T.Ordered)
    (hA : Agrees A a b) (hc : a.Coherent) (hs : s.index < a.scopeCount) (nesting depth : Nat)
    (hn : b.declaredFunctions.size ≤ nesting + a.declaredFunctions.size) :
    ∃ es, (b.scopeAt s).functionBindings.entries =
        (a.scopeAt s).functionBindings.entries ++ es ∧
      (∀ e ∈ es, ∃ k, i ≤ k ∧ k < j ∧ (A.functionAt e.2).span.start = (T.get k).location) ∧
      (A.layoutAt nesting).statements depth (es.map (·.2)) ns = Clause.piecesOf depth cs := by
  match h with
  | .nil => exact ⟨[], (List.append_nil _).symm, nofun, rfl⟩
  | .semicolon _ h =>
    obtain ⟨es, hes, hst, hp⟩ := h.pieces hT hA hc hs nesting depth hn
    exact ⟨es, hes, fun e he => by
      obtain ⟨k, hk, hk', hs⟩ := hst e he
      exact ⟨k, by omega, hk', hs⟩, hp⟩
  | .cons (c := c) (n := o) (j := l) (b := d) h ht =>
    obtain ⟨hf, hcd⟩ := h.frame hc hs
    have hsd := Nat.lt_of_lt_of_le hs hf.scopeCount
    obtain ⟨hf', _⟩ := ht.frame hcd hsd
    have hlt := h.lt
    have hle := ht.le
    have hj := ht.le_size h.le_size
    have := hf.functionCount
    have := hf'.functionCount
    have h₁ := h.pieces hT (hA.first hf' hs) hc hs nesting depth (by omega)
    -- `es` are the functions declared among the statements behind this one.
    obtain ⟨es, hes, hst, hp⟩ := ht.pieces hT (hA.rest hf) hcd hsd nesting depth (by omega)
    match o with
    | some n =>
      obtain ⟨hbound, hn⟩ := h₁
      obtain ⟨⟨k, hk, hkl, hs⟩, _⟩ := h.node
      refine ⟨es, by rw [hes, hbound], fun e he => ?_, ?_⟩
      · obtain ⟨m, hm, hm', hs⟩ := hst e he
        exact ⟨m, by omega, hm', hs⟩
      · -- The functions that are left are declared behind the statement.
        rw [Option.toList, List.singleton_append, Layout.statements_cons_node, hn, hp,
          Clause.piecesOf]
        intro f hf
        obtain ⟨e, he, rfl⟩ := List.mem_map.1 hf
        obtain ⟨m, hm, hm', hs'⟩ := hst e he
        rw [show (A.layoutAt nesting).arena = A from rfl, hs, hs', hT.lt_iff (by omega) (by omega)]
        omega
    | none =>
      obtain ⟨e, hbound, hs, hn⟩ := h₁
      refine ⟨e :: es, by rw [hes, hbound, List.append_assoc]; rfl, fun e' he => ?_, ?_⟩
      · rcases List.mem_cons.1 he with rfl | he
        · exact ⟨i, Nat.le_refl _, by omega, hs⟩
        · obtain ⟨m, hm, hm', hs⟩ := hst e' he
          exact ⟨m, by omega, hm', hs⟩
      · -- The statements that are left begin behind the function.
        rw [Option.toList, List.nil_append, List.map_cons, Layout.statements_cons_function, hp,
          Clause.piecesOf, ← hn]
        · rfl
        intro n hn
        obtain ⟨⟨m, hm, hm', hs'⟩, _⟩ := ht.node hn
        rw [show (A.layoutAt nesting).arena = A from rfl, hs, hs', hT.lt_iff (by omega) (by omega)]
        omega

theorem BlockAt.pieces {s i a cs block j b} (h : BlockAt T s i a cs block j b) (hT : T.Ordered)
    (hA : Agrees A a b) (hc : a.Coherent) (hs : s.index < a.scopeCount) (nesting depth : Nat)
    (hn : b.declaredFunctions.size ≤ nesting + a.declaredFunctions.size) :
    (A.layoutAt nesting).block depth block =
      Clause.braced depth (Clause.piecesOf (depth + 1) cs) := by
  match h with
  | .mk (q := q) (b := d) _ hp h _ =>
    have hp := scopePushed hp hs
    obtain ⟨hf, _⟩ := h.frame (hc.pushScope hp) hp.lt
    obtain ⟨es, hes, _, hp'⟩ := h.pieces hT (hA.rest (.pushScope hp)) (hc.pushScope hp) hp.lt
      nesting (depth + 1) (by rw [hp.declaredFunctions]; exact hn)
    -- The scope of the block was empty at first, so it binds these functions and no others.
    have hids : (A.scopeAt q).functionBindings.ids = es.map (·.2) := by
      rw [hA.functionBindings (Nat.le_of_eq hp.id.symm) (Nat.lt_of_lt_of_le hp.lt hf.scopeCount),
        Bindings.ids, hes, hp.new]
      rfl
    rw [Layout.block, show (A.layoutAt nesting).arena = A from rfl, hids, hp']
    rfl

end

/-- A program is printed as the clauses it was read from. -/
theorem ProgramAt.pieces {cs p} (h : ProgramAt T cs p) (hT : T.Ordered) :
    p.pieces = Clause.piecesOf 0 cs := by
  cases h with
  | @mk ns j b h _ =>
    have hA : ∀ x, Agrees (b.addFunction x).2 .fresh b := fun x => {
      variableAt := fun _ => rfl
      functionAt := fun _ hf => (functionAt_of_push (x := x) rfl).trans (if_neg (Nat.ne_of_lt hf))
      functionBindings := fun _ _ => rfl }
    have hself : ∀ x, (b.addFunction x).2.functionAt (b.addFunction x).1 = x := fun x =>
      (functionAt_of_push (x := x) rfl).trans (if_pos rfl)
    obtain ⟨es, hes, _, hp⟩ := h.pieces hT (hA _) .fresh (by decide)
      (b.declaredFunctions.size + 1) 0 (by omega)
    have hids : (b.scopeAt root).functionBindings.ids = es.map (·.2) := by
      rw [Bindings.ids, hes, scopeAt_fresh]
      rfl
    rw [← hids] at hp
    rw [Program.pieces, Program.topLevel, programOf, hself, layout, ← hp, layoutAt]
    simp only [addFunction, Array.size_push]
    rfl

end ScriptSyntax
