import ScriptSyntax.Proofs.Grammar.Extent
import ScriptSyntax.Proofs.Scope.Growth

/-!
What each rule declares: reading in one scope keeps all that was declared before it, and the
bindings stay bindings of declarations.
-/

namespace ScriptSyntax

open Arena

variable {T : TokenList}

namespace DefinesAll

variable {q : ScopeId} {a b : Arena} {ps : List (ValueType × Token)}

theorem frame (h : DefinesAll q a ps b) (hc : a.Coherent) (hq : q.index < a.scopeCount) :
    Frame (some q) a b ∧ b.Coherent := by
  induction h with
  | nil => exact ⟨.refl _ _, hc⟩
  | cons hd _ ih =>
    have hd := variableDefined hd
    have hf := Frame.defineVariable hd
    obtain ⟨hf', hc'⟩ := ih (hc.defineVariable hd hq rfl) (Nat.lt_of_lt_of_le hq hf.scopeCount)
    exact ⟨hf.trans hf', hc'⟩

theorem scopeCount_eq (h : DefinesAll q a ps b) : b.scopeCount = a.scopeCount := by
  induction h with
  | nil => rfl
  | cons hd _ ih => exact ih.trans (variableDefined hd).scopeCount

theorem functions_eq (h : DefinesAll q a ps b) : b.declaredFunctions = a.declaredFunctions := by
  induction h with
  | nil => rfl
  | cons hd _ ih => exact ih.trans (variableDefined hd).declaredFunctions

/-- The first variable is kept as it was declared, while the others are declared behind it. -/
theorem keeps_first {t : ValueType} {name : Token} {x : VariableId} {c : Arena}
    (hd : VariableDefined a q ⟨t, name.text, q, name.location⟩ x b) (h : DefinesAll q b ps c)
    (hc : a.Coherent) (hq : q.index < a.scopeCount) :
    b.Coherent ∧ q.index < b.scopeCount ∧ Frame (some q) b c ∧
      c.variableAt x = ⟨t, name.text, q, name.location⟩ := by
  have hcb := hc.defineVariable hd hq rfl
  have hqb : q.index < b.scopeCount := hd.scopeCount ▸ hq
  obtain ⟨hf, -⟩ := h.frame hcb hqb
  exact ⟨hcb, hqb, hf, (hf.variableAt hd.lt).trans hd.stored⟩

/-- Each variable declared so is what its name means in the scope. -/
theorem parameter (h : DefinesAll q a ps b) (hc : a.Coherent) (hq : q.index < a.scopeCount)
    {v : VariableId} (hv : a.declaredVariables.size ≤ v.index)
    (hv' : v.index < b.declaredVariables.size) :
    ∃ p ∈ ps, (b.scopeAt q).variableBindings.get? p.2.text = some v := by
  induction h with
  | nil => omega
  | @cons a t name x b ps c hd hps ih =>
    have hd := variableDefined hd
    obtain ⟨hcb, hqb, hf, -⟩ := hps.keeps_first hd hc hq
    rcases Nat.lt_or_eq_of_le hv with hv | hv
    · -- It is one of the later parameters.
      obtain ⟨p, hp, hget⟩ := ih hcb hqb (by rw [hd.size]; omega) hv'
      exact ⟨p, List.mem_cons_of_mem _ hp, hget⟩
    · -- It is the first, and what its name means is kept while the others are bound behind it.
      have hxv : x = v := VariableId.ext (hd.id.trans hv)
      have hget : (b.scopeAt q).variableBindings.get? name.text = some x := by
        rw [hd.bound hq]
        exact Bindings.get?_bind_self
      exact ⟨_, List.mem_cons_self,
        (hf.variableBindings hqb).get? (hxv ▸ hget)⟩

end DefinesAll

/-- What the declaration of a function up to its body has done. -/
structure HeadDeclared (T : TokenList) (s : ScopeId) (i : Nat) (a : Arena) (g : Signature)
    (f : FunctionId) (q : ScopeId) (d : Arena) : Prop where
  frame : Frame (some s) a d
  coherent : d.Coherent
  scope : q.index = a.scopeCount
  scopeCount : d.scopeCount = a.scopeCount + 1
  id : f.index = a.declaredFunctions.size
  functionCount : d.declaredFunctions.size = a.declaredFunctions.size + 1
  head : d.functionAt f = headOf g s q (T.get i).location
  bound : (d.scopeAt s).functionBindings.entries =
    (a.scopeAt s).functionBindings.entries ++ [(g.name, f)]
  parameter : ∀ {v : VariableId}, a.declaredVariables.size ≤ v.index →
    v.index < d.declaredVariables.size →
    ∃ p ∈ g.parameters, (d.scopeAt q).variableBindings.get? p.name = some v

theorem HeadDeclared.lt {s i a g f q d} (h : HeadDeclared T s i a g f q d) :
    q.index < d.scopeCount := by
  rw [h.scope, h.scopeCount]
  exact Nat.lt_succ_self _

theorem HeadAt.declared {s i a g f q j d} (h : HeadAt T s i a g f q j d) (hc : a.Coherent)
    (hs : s.index < a.scopeCount) : HeadDeclared T s i a g f q d := by
  cases h with
  | @mk t ps j q b c f d _ _ _ _ _ hp hps hd =>
    have hp := scopePushed hp hs
    obtain ⟨hb, hcb⟩ := hps.frame (hc.pushScope hp) hp.lt
    have hb := (Frame.pushScope hp).close hb (Nat.le_of_eq hp.id.symm)
    have hd := functionDefined hd
    have hcount : c.scopeCount = a.scopeCount + 1 := hps.scopeCount_eq.trans hp.scopeCount
    have hfunctions : c.declaredFunctions = a.declaredFunctions :=
      hps.functions_eq.trans hp.declaredFunctions
    exact {
      frame := (hb.weaken _).trans (Frame.defineFunction hd)
      coherent := hcb.defineFunction hd (by omega) (by rw [hcount, ← hp.scopeCount]; exact hp.lt)
      scope := hp.id
      scopeCount := hd.scopeCount.trans hcount
      id := by rw [hd.id, hfunctions]
      functionCount := by rw [hd.size, hfunctions]
      head := hd.stored
      bound := by
        rw [hd.bound (by omega), Bindings.entries_bind hd.free, (hb.elsewhere hs nofun).2]
        rfl
      parameter := fun {v} hv hv' => by
        obtain ⟨p, hmem, hget⟩ := hps.parameter (hc.pushScope hp) hp.lt
          (by rw [hp.declaredVariables]; exact hv) (hd.declaredVariables ▸ hv')
        refine ⟨_, List.mem_map_of_mem hmem, ?_⟩
        rw [hd.elsewhere (hp.ne_new hs).symm]
        exact hget }

-- A block declares in a scope that is new, so what is kept outside of it is kept with no exception;
-- a statement may declare in the scope it stands in, which is the exception `s`.
mutual

theorem StatementAt.frame {s i a c o j b} (h : StatementAt T s i a c o j b) (hc : a.Coherent)
    (hs : s.index < a.scopeCount) : Frame (some s) a b ∧ b.Coherent := by
  match h with
  | .expression _ _ _ _ | .assign _ _ _ _ _ | .print _ _ _ _ | .giveBackNothing _ _
  | .giveBack _ _ _ => exact ⟨.refl _ _, hc⟩
  | .declare _ _ _ _ _ hd _ =>
    have hd := variableDefined hd
    exact ⟨.defineVariable hd, hc.defineVariable hd hs rfl⟩
  | .block hb | .branch _ _ _ _ hb _ | .whileLoop _ _ _ _ hb | .forLoop _ _ _ _ _ _ _ hb =>
    obtain ⟨hf, hc⟩ := hb.frame hc hs
    exact ⟨hf.weaken _, hc⟩
  | .branchElse _ _ _ _ hb _ hb' =>
    obtain ⟨hf, hc⟩ := hb.frame hc hs
    obtain ⟨hf', hc⟩ := hb'.frame hc (Nat.lt_of_lt_of_le hs hf.scopeCount)
    exact ⟨(hf.trans hf').weaken _, hc⟩
  | .function hh hb =>
    have hd := hh.declared hc hs
    obtain ⟨hf, hc⟩ := hb.frame hd.coherent hd.lt
    exact ⟨(hd.frame.trans (hf.weaken _)).setBody (Nat.le_of_eq hd.id.symm), hc.setBody⟩
  | .native hh _ _ _ hr =>
    have hd := hh.declared hc hs
    have hr := scopePushed hr hd.lt
    exact ⟨(hd.frame.trans ((Frame.pushScope hr).weaken _)).setBody (Nat.le_of_eq hd.id.symm),
      (hd.coherent.pushScope hr).setBody⟩

theorem ItemsAt.frame {s i a cs ns j b} (h : ItemsAt T s i a cs ns j b) (hc : a.Coherent)
    (hs : s.index < a.scopeCount) : Frame (some s) a b ∧ b.Coherent := by
  match h with
  | .nil => exact ⟨.refl _ _, hc⟩
  | .semicolon _ h => exact h.frame hc hs
  | .cons h ht =>
    obtain ⟨hf, hc⟩ := h.frame hc hs
    obtain ⟨hf', hc⟩ := ht.frame hc (Nat.lt_of_lt_of_le hs hf.scopeCount)
    exact ⟨hf.trans hf', hc⟩

theorem BlockAt.frame {s i a cs block j b} (h : BlockAt T s i a cs block j b) (hc : a.Coherent)
    (hs : s.index < a.scopeCount) : Frame none a b ∧ b.Coherent := by
  match h with
  | .mk _ hp h _ =>
    have hp := scopePushed hp hs
    obtain ⟨hf, hc⟩ := h.frame (hc.pushScope hp) hp.lt
    exact ⟨(Frame.pushScope hp).close hf (Nat.le_of_eq hp.id.symm), hc⟩

end

end ScriptSyntax
