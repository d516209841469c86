import ScriptSyntax.Proofs.Grammar.Completeness
import ScriptSyntax.Proofs.Grammar.Reading

/-!
What the names in a program refer to, told from the finished program alone: the innermost scope that
binds the name to something declared in front of the place where it is used.
-/

namespace ScriptSyntax

open Arena

variable {T : TokenList} {cs : List Clause} {p : Program}

/-- A program read up to slot `j`, in front of which the arena `b` was reached. -/
structure ProgramRead (T : TokenList) (p : Program) (j : Nat) (b : Arena) : Prop where
  le_size : j ≤ T.size
  coherent : b.Coherent
  grows : b.Grows p.arena
  scopeAt : ∀ {t}, p.arena.scopeAt t = b.scopeAt t
  functionCount : p.arena.declaredFunctions.size = b.declaredFunctions.size + 1
  top : ∀ {f : FunctionId}, f.index = b.declaredFunctions.size →
    (p.arena.functionAt f).signature.parameters = []
  timeline : Timeline T 0 .fresh (· ∈ p.occurrences) j b

theorem mem_occurrences {o : ScopeId × Node} :
    o ∈ p.occurrences ↔ ∃ f : FunctionId, f.index < p.arena.declaredFunctions.size ∧
      o ∈ (p.arena.functionAt f).body.occurrences := by
  have hget : ∀ {i : Nat} (h : i < p.arena.declaredFunctions.size),
      p.arena.functionAt ⟨i⟩ = p.arena.declaredFunctions[i] := by
    intro i h
    simp [Arena.functionAt, h]
  simp only [Program.occurrences, List.mem_flatMap, Array.mem_toList_iff, Array.mem_iff_getElem]
  constructor
  · rintro ⟨_, ⟨i, hi, rfl⟩, ho⟩
    exact ⟨⟨i⟩, hi, by rw [hget hi]; exact ho⟩
  · rintro ⟨⟨i⟩, hi, ho⟩
    rw [hget hi] at ho
    exact ⟨_, ⟨i, hi, rfl⟩, ho⟩

theorem bodyScope_root : fresh.BodyScope root where
  lt := by decide
  parameterScope h := nomatch h

theorem ProgramAt.read (h : ProgramAt T cs p) (hT : T.Ordered) : ∃ j b, ProgramRead T p j b := by
  cases h with
  | @mk ns j b h _ =>
    obtain ⟨hf, hc⟩ := h.frame .fresh bodyScope_root.lt
    have hold : ∀ x {f : FunctionId}, f.index < b.declaredFunctions.size →
        (b.addFunction x).2.functionAt f = b.functionAt f := fun x f hlt =>
      (functionAt_of_push (x := x) rfl).trans (if_neg (Nat.ne_of_lt hlt))
    have hnew : ∀ x {f : FunctionId}, f.index = b.declaredFunctions.size →
        (b.addFunction x).2.functionAt f = x := fun x f heq =>
      (functionAt_of_push (x := x) rfl).trans (if_pos heq)
    have hcount : ∀ x, (b.addFunction x).2.declaredFunctions.size = b.declaredFunctions.size + 1 :=
      fun x => Array.size_push ..
    refine ⟨j, b, {
      le_size := h.le_size (Nat.zero_le _)
      coherent := hc
      grows := .addFunction hc _
      scopeAt := rfl
      functionCount := hcount _
      top := fun hf => by
        rw [programOf]
        dsimp only
        rw [hnew _ hf]
      timeline := (h.timeline hT .fresh bodyScope_root).congr fun o => ?_ }⟩
    rw [mem_occurrences, programOf]
    dsimp only
    rw [hcount]
    constructor
    · rintro ⟨f, hlt, ho⟩
      rcases Nat.lt_succ_iff_lt_or_eq.1 hlt with hlt | heq
      · rw [hold _ hlt] at ho
        exact Or.inr ⟨f, Nat.zero_le _, hlt, ho⟩
      · rw [hnew _ heq] at ho
        exact Or.inl ho
    · rintro (ho | ⟨f, _, hlt, ho⟩)
      · refine ⟨⟨b.declaredFunctions.size⟩, Nat.lt_succ_self _, ?_⟩
        rw [hnew _ (f := ⟨b.declaredFunctions.size⟩) rfl]
        exact ho
      · exact ⟨f, Nat.lt_succ_of_lt hlt, by rw [hold _ hlt]; exact ho⟩

theorem exists_of_lookup {a : Arena} {s : ScopeId} {name : String} {v : VariableId}
    (h : a.lookupVariable? s name = some v) :
    ∃ t ∈ a.chain s, (name, v) ∈ (a.scopeAt t).variableBindings.entries := by
  obtain ⟨t, ht, hget⟩ := List.exists_of_findSome?_eq_some h
  exact ⟨t, ht, Bindings.mem_of_get? hget⟩

namespace ProgramRead

variable {j k : Nat} {b m : Arena} {o : ScopeId × Node} {v : VariableId}

/-- A variable that was there when a tree was read is a parameter, or its declaration had ended. -/
theorem variableVisible (h : ProgramRead T p j b)
    (hm : Moment T 0 .fresh (· ∈ p.occurrences) j b o k m)
    (hv : v.index < m.declaredVariables.size) : p.variableVisible o.2.span.start v = true := by
  have hlt := Nat.lt_of_lt_of_le hv hm.grows.variableCount
  rw [Program.variableVisible, Bool.or_eq_true]
  rcases h.timeline.covered (Nat.zero_le _) hlt with hp | ⟨o', ho', hd⟩
  · exact Or.inl (h.grows.isParameter hp)
  · refine Or.inr (List.any_eq_true.2 ⟨o', ho', ?_⟩)
    have hf := (hm.variable_iff ho' hd).1 hv
    rw [← hm.start] at hf
    simp [hd, hf]

/-- A later variable is not visible, unless it is a parameter of a function that does not enclose
the tree. -/
theorem variableVisible_later (h : ProgramRead T p j b)
    (hm : Moment T 0 .fresh (· ∈ p.occurrences) j b o k m) {t : ScopeId} {x : String}
    (ht : t.index < m.scopeCount) (hx : (x, v) ∈ (p.arena.scopeAt t).variableBindings.entries)
    (hv : m.declaredVariables.size ≤ v.index) : p.variableVisible o.2.span.start v = false := by
  rw [Program.variableVisible, Bool.or_eq_false_iff]
  constructor
  · rw [← Bool.not_eq_true, isParameter_iff]
    rintro ⟨f, hf, q, hq, hget⟩
    rw [h.functionCount] at hf
    rcases Nat.lt_succ_iff_lt_or_eq.1 hf with hf | hf
    · -- Scope `t` holds the parameters of `f`, so `f` was declared when the tree was read.
      have hscope : t = (b.functionAt f).parameterScope := by
        rw [h.scopeAt] at hx
        rw [h.grows.parameterScope hf, h.scopeAt] at hget
        exact (h.coherent.variableBindings hx).2.2.symm.trans
          (h.coherent.variableBindings (Bindings.mem_of_get? hget)).2.2
      rcases Nat.lt_or_ge f.index m.declaredFunctions.size with hfm | hfm
      · rw [h.grows.parameterScope hf, h.scopeAt, hm.grows.parameterScope hfm,
          hm.grows.parameters hfm] at hget
        have := (hm.coherent.variableBindings (Bindings.mem_of_get? hget)).1
        omega
      · have := hm.later hfm hf
        rw [← hscope] at this
        omega
    · rw [h.top hf] at hq
      exact nomatch hq
  · rw [List.any_eq_false]
    intro o' ho' hvis
    simp only [Bool.and_eq_true, decide_eq_true_eq] at hvis
    rw [hm.start] at hvis
    have := (hm.variable_iff ho' hvis.1).2 hvis.2
    omega

theorem functionVisible_iff (h : ProgramRead T p j b)
    (hm : Moment T 0 .fresh (· ∈ p.occurrences) j b o k m) {f : FunctionId}
    (hf : f.index < b.declaredFunctions.size) :
    p.functionVisible o.2.span.start f = true ↔ f.index < m.declaredFunctions.size := by
  rw [Program.functionVisible, decide_eq_true_eq, h.grows.start hf, hm.start]
  exact (hm.function_iff (Nat.zero_le _) hf).symm

end ProgramRead

/-- A tree that refers to a variable refers to what its name is bound to in the first scope around
it that binds the name to a visible variable. That scope is one around the tree, and no declaration
of the variable reaches up to it. -/
theorem variable_resolution {limit : Nat} {source : String} {p : Program} {s : ScopeId} {n : Node}
    {v : VariableId} (h : parse limit source = .ok p) (hn : (s, n) ∈ p.occurrences)
    (hv : n.referent? = some v) :
    (p.arena.chain s).findSome? (fun t =>
        ((p.arena.scopeAt t).variableBindings.get? (p.arena.variableAt v).name).filter
          (p.variableVisible n.span.start)) = some v ∧
      (p.arena.variableAt v).owner ∈ p.arena.chain s ∧
      ∀ o ∈ p.occurrences, o.2.declared? = some v → o.2.span.finish < n.span.start := by
  obtain ⟨T, cs, hT, hp⟩ := Parser.programAt_of_parse h
  obtain ⟨j, b, hr⟩ := hp.read (TokenList.ordered_of_tokenize hT)
  obtain ⟨k, m, hm⟩ := hr.timeline.moment hn
  have hg := hm.grows.trans hr.grows
  obtain ⟨x, hx⟩ : ∃ x, m.lookupVariable? s x = some v := by
    have hres := hm.resolved
    cases n with
    | load | assign | forLoop => cases hv; exact hres
    | _ => exact nomatch hv
  obtain ⟨t, ht, hmem⟩ := exists_of_lookup hx
  obtain ⟨hlt, hname, howner⟩ := hm.coherent.variableBindings hmem
  have hvariable : p.arena.variableAt v = m.variableAt v := hg.variableAt hlt
  rw [hvariable, hname, howner, hg.chain hm.scope]
  refine ⟨?_, ht, fun o ho hd => ?_⟩
  · rw [← hg.chain hm.scope, ← hx]
    exact hg.lookupVariable? hm.scope
      (fun hmem => hr.variableVisible hm (hm.coherent.variableBindings hmem).1)
      fun ht hmem hv => hr.variableVisible_later hm ht hmem hv
  · have hf := (hm.variable_iff ho hd).1 hlt
    rwa [← hm.start] at hf

/-- The `x` at byte 13 stands in front of the inner declaration, so it is the outer variable. -/
theorem variable_resolution_shadowed :
    ∃ p, parse 8 "int x = 1; \x7b x; int x = 2; \x7d" = .ok p ∧
      ((p.arena.chain ⟨1⟩).findSome? fun t =>
        ((p.arena.scopeAt t).variableBindings.get? (p.arena.variableAt ⟨0⟩).name).filter
          (p.variableVisible (.known 0 13))) = some ⟨0⟩ := by
  have h : (match parse 8 "int x = 1; \x7b x; int x = 2; \x7d" with
      | .ok p => decide ((⟨1⟩, .load ⟨0⟩ (.single (.known 0 13))) ∈ p.occurrences)
      | .error _ => false) = true := by decide +kernel
  split at h
  · next p hp => exact ⟨p, hp, (variable_resolution hp (of_decide_eq_true h) rfl).1⟩
  · contradiction

/-- A call refers to what its name is bound to in the first scope around it that binds the name to a
function declared in front of the call, and to nothing if there is no such scope. -/
theorem call_resolution {limit : Nat} {source : String} {p : Program} {s : ScopeId} {name : String}
    {function : Option FunctionId} {arguments : List Node} {span : Span}
    (h : parse limit source = .ok p)
    (hn : (s, .call name function arguments span) ∈ p.occurrences) :
    function = ((p.arena.chain s).findSome? fun t =>
        ((p.arena.scopeAt t).functionBindings.get? name).filter (p.functionVisible span.start)) ∧
      ∀ f, function = some f → (p.arena.functionAt f).signature.name = name := by
  obtain ⟨T, cs, hT, hp⟩ := Parser.programAt_of_parse h
  obtain ⟨j, b, hr⟩ := hp.read (TokenList.ordered_of_tokenize hT)
  obtain ⟨k, m, hm⟩ := hr.timeline.moment hn
  have hg := hm.grows.trans hr.grows
  have hres : function = m.lookupFunction? s name := hm.resolved
  refine ⟨?_, fun f hf => ?_⟩
  · rw [hres]
    refine (hg.lookupFunction? hm.scope (fun {t f} hmem => ?_) fun {t f} ht hmem hf => ?_).symm
    · have hlt := (hm.coherent.functionBindings hmem).1
      exact (hr.functionVisible_iff hm (Nat.lt_of_lt_of_le hlt hm.grows.functionCount)).2 hlt
    · rw [hr.scopeAt] at hmem
      have hvis := (hr.functionVisible_iff hm (hr.coherent.functionBindings hmem).1).not
      rw [Bool.not_eq_true] at hvis
      exact hvis.2 (by omega)
  · obtain ⟨t, _, hget⟩ := List.exists_of_findSome?_eq_some (hres.symm.trans hf)
    obtain ⟨hlt, hname⟩ := hm.coherent.functionBindings (Bindings.mem_of_get? hget)
    rw [hg.signature hlt, hname]

/-- The inner `f` is called in its own body, and the outer one in front of it. -/
theorem call_resolution_recursive :
    ∃ p, parse 8 "function void f() \x7b f(); function void f() \x7b f(); \x7d \x7d" = .ok p ∧
      some ⟨0⟩ = ((p.arena.chain ⟨2⟩).findSome? fun t =>
        ((p.arena.scopeAt t).functionBindings.get? "f").filter
          (p.functionVisible (.known 0 20))) ∧
      some ⟨1⟩ = (p.arena.chain ⟨4⟩).findSome? fun t =>
        ((p.arena.scopeAt t).functionBindings.get? "f").filter
          (p.functionVisible (.known 0 45)) := by
  have h : (match parse 8 "function void f() \x7b f(); function void f() \x7b f(); \x7d \x7d" with
      | .ok p => decide ((⟨2⟩, .call "f" (some ⟨0⟩) [] ⟨.known 0 20, .known 0 22⟩) ∈ p.occurrences ∧
          (⟨4⟩, .call "f" (some ⟨1⟩) [] ⟨.known 0 45, .known 0 47⟩) ∈ p.occurrences)
      | .error _ => false) = true := by decide +kernel
  split at h
  · next p hp =>
    have h := of_decide_eq_true h
    exact ⟨p, hp, (call_resolution hp h.1).1, (call_resolution hp h.2).1⟩
  · contradiction

end ScriptSyntax
