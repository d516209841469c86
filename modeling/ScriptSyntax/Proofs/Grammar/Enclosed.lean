import ScriptSyntax.Proofs.Grammar.Congruence
import ScriptSyntax.Proofs.Grammar.Ending
import ScriptSyntax.Proofs.Scope.Growth

/-!
What a parser leaves of the arena, however it ends: all that was declared before, and only such new
scopes as stand inside older ones.
-/

namespace ScriptSyntax

namespace Arena

variable {o : Option ScopeId} {a b c : Arena} {s q : ScopeId}

/-- What `Frame` keeps, the children included, and each scope that was added is inside an older
one. -/
structure Enclosed (o : Option ScopeId) (a b : Arena) : Prop extends Frame o a b where
  children : ∀ {t : ScopeId}, t.index < a.scopeCount →
    (a.scopeAt t).children.toList <+: (b.scopeAt t).children.toList
  childless : ∀ {t : ScopeId}, t.index < a.scopeCount → some t ≠ o →
    (b.scopeAt t).children = (a.scopeAt t).children
  inside : ∀ {t : ScopeId}, a.scopeCount ≤ t.index → t.index < b.scopeCount →
    ∃ u : ScopeId, (b.scopeAt t).owner = some u ∧ u.index < t.index

namespace Enclosed

/-- No scope was added. -/
theorem of_frame (h : Frame o a b) (hcount : b.scopeCount = a.scopeCount)
    (hchildren : ∀ {t : ScopeId}, t.index < a.scopeCount →
      (b.scopeAt t).children = (a.scopeAt t).children) : Enclosed o a b :=
  { h with
    children := fun ht => hchildren ht ▸ List.prefix_rfl
    childless := fun ht _ => hchildren ht
    inside := fun ht ht' => by omega }

theorem refl (o : Option ScopeId) (a : Arena) : Enclosed o a a :=
  .of_frame (.refl o a) rfl fun _ => rfl

theorem compose {o' : Option ScopeId} (h : Enclosed o a b) (h' : Enclosed o' b c)
    (ho : ∀ {t : ScopeId}, t.index < a.scopeCount → some t ≠ o → some t ≠ o') : Enclosed o a c :=
  { h.toFrame.compose h'.toFrame ho with
    children := fun ht =>
      (h.children ht).trans (h'.children (Nat.lt_of_lt_of_le ht h.scopeCount))
    childless := fun ht hn =>
      (h'.childless (Nat.lt_of_lt_of_le ht h.scopeCount) (ho ht hn)).trans (h.childless ht hn)
    inside := fun {t} ht ht' => by
      rcases Nat.lt_or_ge t.index b.scopeCount with hb | hb
      · rw [h'.owner hb]
        exact h.inside ht hb
      · exact h'.inside hb ht' }

theorem trans (h : Enclosed o a b) (h' : Enclosed o b c) : Enclosed o a c :=
  h.compose h' fun _ hn => hn

theorem close (h : Enclosed o a b) (h' : Enclosed (some q) b c) (hq : a.scopeCount ≤ q.index) :
    Enclosed o a c :=
  h.compose h' fun ht _ ht' => by cases ht'; omega

theorem pushScope (h : ScopePushed a s q b) : Enclosed (some s) a b :=
  { (Frame.pushScope h).weaken (some s) with
    children := fun {t} ht => by
      by_cases hts : t = s
      · rw [hts, h.owner, Array.toList_push]
        exact List.prefix_append _ _
      · have hsame := h.elsewhere (h.ne_new ht) hts
        exact hsame ▸ List.prefix_rfl
    childless := fun {t} ht hn => by
      rw [h.elsewhere (h.ne_new ht) fun hts => hn (hts ▸ rfl)]
    inside := fun {t} ht ht' => by
      have htq : t = q := ScopeId.ext (by have := h.id; have := h.scopeCount; omega)
      rw [htq, h.new, h.id]
      exact ⟨s, rfl, h.inside⟩ }

theorem setBody {f : FunctionId} {body : Block} {span : Span} (h : Enclosed o a b)
    (hf : a.declaredFunctions.size ≤ f.index) : Enclosed o a (b.setBody f body span) :=
  { h.toFrame.setBody hf with
    children := h.children
    childless := h.childless
    inside := h.inside }

end Enclosed

end Arena

open Arena

namespace Parser

variable {α β : Type} {c : Context} {s : Progress}

/-- However `p` ends, it declares in the current scope and in new ones inside it only. -/
def Keeps (p : Parser α) : Prop :=
  ∀ c s, c.scope.index < s.arena.scopeCount →
    Ends p c s (fun _ t => Enclosed (some c.scope) s.arena t.arena)
      fun _ t => Enclosed (some c.scope) s.arena t.arena

/-- A parser that leaves the arena as it is. -/
theorem Keeps.of_arena {p : Parser α}
    (h : ∀ c s, Ends p c s (fun _ t => t.arena = s.arena) fun _ t => t.arena = s.arena) :
    Keeps p := by
  intro c s _
  refine (h c s).imp ?_ ?_
  · intro a t ht
    rw [ht]
    exact .refl ..
  · intro e t ht
    rw [ht]
    exact .refl ..

theorem Keeps.bind {p : Parser α} {f : α → Parser β} (h : Keeps p) (hf : ∀ a, Keeps (f a)) :
    Keeps (p >>= f) := by
  intro c s hc
  rw [ends_bind]
  refine (h c s hc).imp ?_ fun _ _ he => he
  intro a t ht
  refine (hf a c t (Nat.lt_of_lt_of_le hc ht.scopeCount)).imp ?_ ?_
  · intro b u hu
    exact ht.trans hu
  · intro e u hu
    exact ht.trans hu

theorem keeps_define (type : ValueType) (name : Token) : Keeps (define type name) := by
  intro c s _
  rw [define, ends_bind, ends_scope, ends_bind, ends_get]
  cases h : s.arena.defineVariable c.scope ⟨type, name.text, c.scope, name.location⟩ false with
  | ok r =>
    have hd := variableDefined h
    exact .of_frame (.defineVariable hd) hd.scopeCount hd.children
  | error x => exact .refl ..

theorem keeps_defineAll (parameters : List (ValueType × Token)) : Keeps (defineAll parameters) := by
  induction parameters with
  | nil => exact .of_arena fun _ _ => rfl
  | cons p parameters ih => exact (keeps_define p.1 p.2).bind fun _ => ih

/-- A function is declared in a scope that need not be the current one. -/
theorem ends_defineFunction (owner : ScopeId) (signature : Signature) (name start : Token) :
    Ends (defineFunction owner signature name start) c s
      (fun f t => Enclosed (some owner) s.arena t.arena ∧
        f.index = s.arena.declaredFunctions.size)
      fun _ t => t.arena = s.arena := by
  rw [defineFunction, ends_bind, ends_scope, ends_bind, ends_get]
  cases h : s.arena.defineFunction owner ⟨signature, owner, c.scope,
    ⟨c.scope, [], .single start.location⟩, .single start.location⟩ false with
  | ok r =>
    have hd := functionDefined h
    exact ⟨.of_frame (.defineFunction hd) hd.scopeCount hd.children, hd.id⟩
  | error x => rfl

theorem ends_opened {p : Parser α} {Q : α → Progress → Prop} {E : Failure → Progress → Prop}
    (hc : c.scope.index < s.arena.scopeCount)
    (h : ∀ q a, ScopePushed s.arena c.scope q a →
      Ends p { c with scope := q } { s with arena := a } Q E) : Ends (inNewScope p) c s Q E := by
  rw [ends_inNewScope]
  exact h _ _ (scopePushed rfl hc)

theorem Keeps.inNewScope {p : Parser α} (h : Keeps p) : Keeps (inNewScope p) := by
  intro c s hc
  apply ends_opened hc
  intro q a hp
  have hend : ∀ t : Progress, Enclosed (some q) a t.arena →
      Enclosed (some c.scope) s.arena t.arena :=
    fun t ht => (Enclosed.pushScope hp).close ht (Nat.le_of_eq hp.id.symm)
  exact (h _ _ hp.lt).imp (fun _ => hend) fun _ => hend

/-- The names of the parameters and the body stand in the new scope, the function in the one around
it. Its body is set last, and by then the function is the only one changed. -/
theorem Keeps.declared {p : Parser Block} (parameters : List (ValueType × Token))
    (signature : Signature) (name start : Token) (h : Keeps p) :
    Keeps (declared parameters signature name start p) := by
  intro c s hc
  rw [Parser.declared, ends_bind, ends_scope]
  apply ends_opened hc
  intro q a hp
  have hq := Nat.le_of_eq hp.id.symm
  rw [ends_bind]
  refine (keeps_defineAll parameters { c with scope := q } ⟨s.position, a⟩ hp.lt).imp ?_ ?_
  · intro _ t ht
    have hat := (Enclosed.pushScope hp).close ht hq
    rw [ends_bind]
    refine (ends_defineFunction c.scope signature name start).imp ?_ ?_
    · rintro f u ⟨hu, hf⟩
      have hau := hat.trans hu
      have hqu : q.index < u.arena.scopeCount :=
        Nat.lt_of_lt_of_le (Nat.lt_of_lt_of_le hp.lt ht.scopeCount) hu.scopeCount
      rw [ends_bind]
      refine (h { c with scope := q } u hqu).imp ?_ ?_
      · intro block v hv
        have hav := hau.close hv hq
        exact hav.setBody (hf ▸ hat.functionCount)
      · intro e v hv
        exact hau.close hv hq
    · intro e u hu
      rw [hu]
      exact hat
  · intro e t ht
    exact (Enclosed.pushScope hp).close ht hq

theorem congruence_keeps : Congruence fun _ p _ => Keeps p where
  pure _ := .of_arena fun _ _ => rfl
  bind h hf := h.bind hf
  fail _ _ := .of_arena fun _ _ => rfl
  tooDeep := .of_arena fun _ _ => rfl
  get := .of_arena fun _ _ => rfl
  scope := .of_arena fun _ _ => rfl
  bounded _ h := (Keeps.of_arena (p := remaining) fun _ _ => rfl).bind h
  tokenAt _ _ := .of_arena fun _ _ => rfl
  advance := .of_arena fun _ _ => rfl
  define := keeps_define
  inNewScope h := h.inNewScope
  declared parameters signature name start h := h.declared parameters signature name start
  finished f := fun c s _ => .of_frame (.addFunction (some c.scope) s.arena f) rfl fun _ => rfl

end Parser

end ScriptSyntax
