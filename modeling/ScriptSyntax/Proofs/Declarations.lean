import Mathlib.Data.List.Nodup
import ScriptSyntax.Proofs.Nesting

/-!
Every variable of a program is declared at one place, by a statement or as a parameter, and every
function has the head and the body that stand in the text.
-/

namespace ScriptSyntax

open Arena

variable {T : TokenList}

/-- A variable as a signature shows it. -/
def Variable.parameter (x : Variable) : Parameter := ⟨x.type, x.name⟩

/-- The positions in a signature that a variable fits by its scope, its type and its name. -/
def Function.positions (f : Function) (x : Variable) : List Nat :=
  if f.parameterScope = x.owner then
    (f.signature.parameters.zipIdx.filter (·.1 = x.parameter)).map (·.2)
  else []

def Program.positions (p : Program) (x : Variable) : List (Function × Nat) :=
  p.arena.declaredFunctions.toList.flatMap fun f => (f.positions x).map (f, ·)

/-- The variables that a site introduces. -/
def Site.introduced (a : Arena) : Site → List VariableId
  | block _ _ => []
  | declare _ n => n.declared?.toList
  | function f => (a.scopeAt f.parameterScope).variableBindings.ids

section Introduced

/-- Variables declared in order in an empty scope are its variables. -/
theorem DefinesAll.introduced {q : ScopeId} {a b : Arena} {ps : List (ValueType × Token)}
    (h : DefinesAll q a ps b) (hc : a.Coherent) (hq : q.index < a.scopeCount) :
    ∃ vs : List VariableId, (b.scopeAt q).variableBindings.ids =
        (a.scopeAt q).variableBindings.ids ++ vs ∧
      b.declaredVariables.size = a.declaredVariables.size + ps.length ∧
      vs.map (·.index) = List.range' a.declaredVariables.size ps.length ∧
      vs.map (fun v => (b.variableAt v).parameter) = ps.map fun p => ⟨p.1, p.2.text⟩ := by
  induction h with
  | nil => exact ⟨[], (List.append_nil _).symm, rfl, rfl, rfl⟩
  | @cons a t name x b ps c hd hps ih =>
    have hd := variableDefined hd
    obtain ⟨hcb, hqb, -, hx⟩ := hps.keeps_first hd hc hq
    obtain ⟨vs, hids, hcount, hindices, hparameters⟩ := ih hcb hqb
    refine ⟨x :: vs, ?_, by rw [hcount, hd.size, List.length_cons]; omega, ?_, ?_⟩
    · rw [hids, hd.bound hq, Bindings.ids, Bindings.entries_bind hd.free, List.map_append,
        List.append_assoc]
      rfl
    · rw [List.map_cons, hindices, hd.size, hd.id, List.length_cons, List.range'_succ]
    · rw [List.map_cons, List.map_cons, hparameters, hx]
      rfl

/-- The variables in the scope of a function's parameters are those of its signature, and newer than
all others. -/
theorem HeadAt.introduced {s i a g f q j d} (h : HeadAt T s i a g f q j d) (hc : a.Coherent)
    (hs : s.index < a.scopeCount) :
    ∃ n, d.declaredVariables.size = a.declaredVariables.size + n ∧
      (d.scopeAt q).variableBindings.ids.map (·.index) =
        List.range' a.declaredVariables.size n ∧
      (d.scopeAt q).variableBindings.ids.map (fun v => (d.variableAt v).parameter) =
        g.parameters := by
  cases h with
  | @mk t ps j q b c f d _ _ _ _ _ hp hps hd =>
    have hp := scopePushed hp hs
    have hd := functionDefined hd
    obtain ⟨vs, hids, hcount, hindices, hparameters⟩ := hps.introduced (hc.pushScope hp) hp.lt
    have hall : (d.scopeAt q).variableBindings.ids = vs := by
      rw [hd.elsewhere (hp.ne_new hs).symm, hids, hp.new]
      rfl
    rw [hp.declaredVariables] at hcount hindices
    refine ⟨ps.length, by rw [hd.declaredVariables, hcount], by rw [hall, hindices], ?_⟩
    rw [hall]
    refine .trans (List.map_congr_left fun v _ => ?_) hparameters
    rw [variableAt_congr hd.declaredVariables]

/-- The parameters of a function lie in a scope that is opened on the way. -/
theorem Passage.parameterScope {s i a ns L j b} (h : Passage T s i a ns L j b) (hc : a.Coherent)
    (hs : s.index < a.scopeCount) {f : Function} (hf : .function f ∈ L) :
    a.scopeCount ≤ f.parameterScope.index ∧ f.parameterScope.index < b.scopeCount := by
  obtain ⟨n, hn, hscopes⟩ := h.scopes hc hs
  have hmem : f.parameterScope.index ∈ (L.flatMap Site.openings).map (·.scope.index) :=
    List.mem_map.2 ⟨_, List.mem_flatMap.2 ⟨_, hf, List.mem_cons_self⟩, rfl⟩
  rw [hscopes] at hmem
  have := List.mem_range'_1.1 hmem
  omega

/-- No variable is added to the parameters of a function that stands in front. -/
theorem Passage.parameters_kept {s i a ns L j b k c ms M} (h : Passage T s i a ns L j b)
    (h' : Passage T s j b ms M k c) (hc : a.Coherent) (hs : s.index < a.scopeCount)
    {f : Function} (hf : .function f ∈ L) :
    (c.scopeAt f.parameterScope).variableBindings =
      (b.scopeAt f.parameterScope).variableBindings := by
  obtain ⟨hframe, hcb⟩ := h.frame hc hs
  obtain ⟨hframe', _⟩ := h'.frame hcb (Nat.lt_of_lt_of_le hs hframe.scopeCount)
  obtain ⟨hle, hlt⟩ := h.parameterScope hc hs hf
  refine (hframe'.elsewhere hlt fun he => ?_).1
  rw [Option.some.inj he] at hle
  omega

mutual

/-- The variables are numbered as they are introduced. -/
theorem Passage.introduced {s i a ns L j b} (h : Passage T s i a ns L j b) (hc : a.Coherent)
    (hs : s.index < a.scopeCount) :
    ∃ n, b.declaredVariables.size = a.declaredVariables.size + n ∧
      (L.flatMap (Site.introduced b)).map (·.index) =
        List.range' a.declaredVariables.size n := by
  match h with
  | .quiet _ => exact ⟨0, rfl, rfl⟩
  | .declare _ _ _ hd =>
    have hd := variableDefined hd
    refine ⟨1, hd.size, ?_⟩
    exact congrArg (fun n => [n]) hd.id
  | .block h => exact h.introduced hc hs
  | .function hh _ h =>
    have hd := hh.declared hc hs
    obtain ⟨hf, _⟩ := h.frame hd.coherent hd.lt
    obtain ⟨m, hm, hparameters, -⟩ := hh.introduced hc hs
    obtain ⟨n, hn, hbody⟩ := h.introduced hd.coherent hd.lt
    refine ⟨m + n, by rw [← Nat.add_assoc, ← hm]; exact hn, ?_⟩
    -- What is declared in the body is not declared in the scope of the parameters.
    rw [← (hf.elsewhere hd.lt (by simp)).1] at hparameters
    rw [← List.range'_append_1, ← hparameters, ← hm, ← hbody]
    exact List.map_append
  | .append (L := K) (b := d) h h' =>
    obtain ⟨hf, hcb⟩ := h.frame hc hs
    obtain ⟨m, hm, hfirst⟩ := h.introduced hc hs
    obtain ⟨n, hn, hrest⟩ := h'.introduced hcb (Nat.lt_of_lt_of_le hs hf.scopeCount)
    refine ⟨m + n, by omega, ?_⟩
    have hkept : K.flatMap (Site.introduced b) = K.flatMap (Site.introduced d) :=
      List.flatMap_congr fun site hsite => by
        cases site with
        | block => rfl
        | declare => rfl
        | function f => exact congrArg Bindings.ids (h.parameters_kept h' hc hs hsite)
    rw [List.flatMap_append, hkept, List.map_append, hfirst, hrest, hm]
    exact List.range'_append_1

theorem Enclosure.introduced {s i a block L j b} (h : Enclosure T s i a block L j b)
    (hc : a.Coherent) (hs : s.index < a.scopeCount) :
    ∃ n, b.declaredVariables.size = a.declaredVariables.size + n ∧
      (L.flatMap (Site.introduced b)).map (·.index) =
        List.range' a.declaredVariables.size n := by
  match h with
  | .mk _ hp h =>
    have hp := scopePushed hp hs
    have hinside := h.introduced (hc.pushScope hp) hp.lt
    rwa [hp.declaredVariables] at hinside

end

end Introduced

section Trees

/-- A tree that declares a variable in the scope it stands in. -/
structure Declares (a : Arena) (t : ScopeId) (n : Node) (v : VariableId) : Prop where
  declared : n.declared? = some v
  lt : v.index < a.declaredVariables.size
  owner : (a.variableAt v).owner = t

theorem Declares.grow {o : Option ScopeId} {a b : Arena} {t n v} (h : Declares a t n v)
    (hf : Frame o a b) : Declares b t n v where
  declared := h.declared
  lt := Nat.lt_of_lt_of_le h.lt hf.variableCount
  owner := by rw [hf.variableAt h.lt]; exact h.owner

mutual

/-- A declaration stands among the statements of the block whose scope it declares in. -/
theorem Passage.declares {s i a ns L j b} (h : Passage T s i a ns L j b) (hc : a.Coherent)
    (hs : s.index < a.scopeCount) : ∀ t n, Site.declare t n ∈ L → (∃ v, Declares b t n v) ∧
      (t = s ∧ n ∈ ns ∨ ∃ c ∈ L.flatMap Site.blocks, c.scope = t ∧ n ∈ c.body) := by
  match h with
  | .quiet _ => exact fun t n hn => absurd hn List.not_mem_nil
  | .declare _ hx _ hd =>
    have hd := variableDefined hd
    intro t n hn
    cases List.mem_singleton.1 hn
    refine ⟨⟨_, rfl, hd.lt, ?_⟩, Or.inl ⟨rfl, List.mem_singleton_self _⟩⟩
    rw [hd.stored, hx]
  | .block h =>
    intro t n hn
    rcases List.mem_cons.1 hn with hn | hn
    · cases hn
    · exact (h.declares hc hs t n hn).imp_right Or.inr
  | .function hh _ h =>
    have hd := hh.declared hc hs
    intro t n hn
    rcases List.mem_cons.1 hn with hn | hn
    · cases hn
    · obtain ⟨⟨v, hv⟩, hblock⟩ := h.declares hd.coherent hd.lt t n hn
      exact ⟨⟨v, hv.declared, hv.lt, hv.owner⟩, Or.inr hblock⟩
  | .append h h' =>
    obtain ⟨hf, hcb⟩ := h.frame hc hs
    have hsb := Nat.lt_of_lt_of_le hs hf.scopeCount
    obtain ⟨hf', _⟩ := h'.frame hcb hsb
    intro t n hn
    rw [List.flatMap_append]
    rcases List.mem_append.1 hn with hn | hn
    · obtain ⟨⟨v, hv⟩, hplace⟩ := h.declares hc hs t n hn
      refine ⟨⟨v, hv.grow hf'⟩, hplace.imp ?_ ?_⟩
      · exact fun ⟨ht, hmem⟩ => ⟨ht, List.mem_append_left _ hmem⟩
      · exact fun ⟨c, hmem, hbody⟩ => ⟨c, List.mem_append_left _ hmem, hbody⟩
    · obtain ⟨hv, hplace⟩ := h'.declares hcb hsb t n hn
      refine ⟨hv, hplace.imp ?_ ?_⟩
      · exact fun ⟨ht, hmem⟩ => ⟨ht, List.mem_append_right _ hmem⟩
      · exact fun ⟨c, hmem, hbody⟩ => ⟨c, List.mem_append_right _ hmem, hbody⟩

theorem Enclosure.declares {s i a block L j b} (h : Enclosure T s i a block L j b)
    (hc : a.Coherent) (hs : s.index < a.scopeCount) :
    ∀ t n, Site.declare t n ∈ L → (∃ v, Declares b t n v) ∧
      ∃ c ∈ block :: L.flatMap Site.blocks, c.scope = t ∧ n ∈ c.body := by
  match h with
  | .mk _ hp h =>
    have hp := scopePushed hp hs
    intro t n hn
    obtain ⟨hv, hplace⟩ := h.declares (hc.pushScope hp) hp.lt t n hn
    refine ⟨hv, ?_⟩
    rcases hplace with ⟨rfl, hmem⟩ | ⟨c, hmem, hbody⟩
    · exact ⟨_, List.mem_cons_self, rfl, hmem⟩
    · exact ⟨c, List.mem_cons_of_mem _ hmem, hbody⟩

end

end Trees

section Functions

/-- The head of a function stands in the text, and right behind it its body. -/
def Function.StandsIn (T : TokenList) (f : Function) : Prop :=
  ∃ i a x j d k b, HeadAt T f.owner i a f.signature x f.parameterScope j d ∧
    BodyAt T f.signature f.parameterScope j d f.body k b ∧
    f.span = ⟨(T.get i).location, f.body.span.finish⟩

/-- A function as its declaration leaves it. -/
structure Function.Finished (T : TokenList) (a : Arena) (f : Function) : Prop where
  standsIn : f.StandsIn T
  body : f.body.scope ≠ f.parameterScope
  parameters : (a.scopeAt f.parameterScope).variableBindings.ids.map
    (fun v => (a.variableAt v).parameter) = f.signature.parameters

/-- The variables of a scope are not touched by what is declared elsewhere. -/
theorem Function.Finished.grow {o : Option ScopeId} {a b : Arena} {f : Function}
    (h : f.Finished T a)
    (hc : a.Coherent) (hf : Frame o a b) (hkept : (b.scopeAt f.parameterScope).variableBindings =
      (a.scopeAt f.parameterScope).variableBindings) : f.Finished T b where
  standsIn := h.standsIn
  body := h.body
  parameters := by
    rw [← h.parameters, hkept]
    apply List.map_congr_left
    intro v hv
    obtain ⟨x, hmem⟩ := Bindings.exists_of_mem_ids hv
    rw [hf.variableAt (hc.variableBindings hmem).1]

/-- Setting a body changes neither scopes nor variables. -/
theorem Function.Finished.setBody {a : Arena} {f : Function} (h : f.Finished T a) {g : FunctionId}
    {body : Block} {span : Span} : f.Finished T (a.setBody g body span) :=
  ⟨h.standsIn, h.body, h.parameters⟩

theorem Enclosure.scope_ne {s i a block L j b} (h : Enclosure T s i a block L j b)
    (hs : s.index < a.scopeCount) : block.scope ≠ s := by
  cases h with
  | mk _ hp _ => exact ((scopePushed hp hs).ne_new hs).symm

theorem HeadAt.function {s i a g f q j d block k b} (h : HeadAt T s i a g f q j d)
    (hbody : BodyAt T g q j d block k b) (hne : block.scope ≠ q) (hc : a.Coherent)
    (hs : s.index < a.scopeCount) :
    Function.Finished T d ⟨g, s, q, block, ⟨(T.get i).location, block.span.finish⟩⟩ := by
  obtain ⟨_, _, _, hparameters⟩ := h.introduced hc hs
  exact ⟨⟨i, a, f, j, d, k, b, h, hbody, rfl⟩, hne, hparameters⟩

mutual

theorem Passage.functions {s i a ns L j b} (h : Passage T s i a ns L j b) (hc : a.Coherent)
    (hs : s.index < a.scopeCount) : ∀ f, Site.function f ∈ L → f.Finished T b := by
  match h with
  | .quiet _ => exact fun f hf => absurd hf List.not_mem_nil
  | .declare _ _ _ _ =>
    intro f hf
    cases List.mem_singleton.1 hf
  | .block h =>
    intro f hf
    rcases List.mem_cons.1 hf with hf | hf
    · cases hf
    · exact h.functions hc hs f hf
  | .function hh hbody h =>
    have hd := hh.declared hc hs
    obtain ⟨hframe, _⟩ := h.frame hd.coherent hd.lt
    intro f hf
    rcases List.mem_cons.1 hf with hf | hf
    · cases hf
      have hhead := hh.function hbody (h.scope_ne hd.lt) hc hs
      exact (hhead.grow hd.coherent hframe (hframe.elsewhere hd.lt (by simp)).1).setBody
    · exact (h.functions hd.coherent hd.lt f hf).setBody
  | .append h h' =>
    obtain ⟨hframe, hcb⟩ := h.frame hc hs
    have hsb := Nat.lt_of_lt_of_le hs hframe.scopeCount
    obtain ⟨hframe', _⟩ := h'.frame hcb hsb
    intro f hf
    rcases List.mem_append.1 hf with hf | hf
    · exact (h.functions hc hs f hf).grow hcb hframe' (h.parameters_kept h' hc hs hf)
    · exact h'.functions hcb hsb f hf

theorem Enclosure.functions {s i a block L j b} (h : Enclosure T s i a block L j b)
    (hc : a.Coherent) (hs : s.index < a.scopeCount) :
    ∀ f, Site.function f ∈ L → f.Finished T b := by
  match h with
  | .mk _ hp h =>
    have hp := scopePushed hp hs
    exact h.functions (hc.pushScope hp) hp.lt

end

end Functions

section Counts

variable {a b : Arena} {v w : VariableId}

/-- No two variables of one scope share a name. -/
theorem Arena.Registered.variable_unique (h : a.Registered)
    (hv : v.index < a.declaredVariables.size) (hw : w.index < a.declaredVariables.size)
    (howner : (a.variableAt v).owner = (a.variableAt w).owner)
    (hname : (a.variableAt v).name = (a.variableAt w).name) : v = w := by
  obtain ⟨_, _, hget⟩ := h.variableBound hv
  obtain ⟨_, _, hget'⟩ := h.variableBound hw
  rw [howner, hname, hget'] at hget
  exact (Option.some.inj hget).symm

theorem Arena.Registered.function_unique (h : a.Registered) {f g : FunctionId}
    (hf : f.index < a.declaredFunctions.size) (hg : g.index < a.declaredFunctions.size)
    (howner : (a.functionAt f).owner = (a.functionAt g).owner)
    (hname : (a.functionAt f).signature.name = (a.functionAt g).signature.name) : f = g := by
  obtain ⟨_, hget⟩ := h.functionBound hf
  obtain ⟨_, hget'⟩ := h.functionBound hg
  rw [howner, hname, hget'] at hget
  exact (Option.some.inj hget).symm

theorem count_introduced (os : List (ScopeId × Node)) :
    ((os.flatMap Site.ofOccurrence).flatMap (Site.introduced a)).count v =
      os.countP fun o => o.2.declared? = some v := by
  induction os with
  | nil => rfl
  | cons o os ih =>
    obtain ⟨s, n⟩ := o
    rw [List.flatMap_cons, List.flatMap_append, List.count_append, ih, List.countP_cons,
      Nat.add_comm]
    congr 1
    -- Only a declaration introduces a variable, and a block by itself introduces none.
    cases n with
    | declare x value span =>
      simp [Site.ofOccurrence, Site.introduced, Node.declared?, List.count_singleton]
    | branch _ _ elseBody => cases elseBody <;> rfl
    | giveBack value => cases value <;> rfl
    | _ => rfl

/-- A variable fits one position for each time that it is among the parameters. -/
theorem length_positions {f : Function} (hc : a.Coherent) (hr : a.Registered)
    (hf : (a.scopeAt f.parameterScope).variableBindings.ids.map
      (fun v => (a.variableAt v).parameter) = f.signature.parameters)
    (hv : v.index < a.declaredVariables.size) :
    (f.positions (a.variableAt v)).length =
      (a.scopeAt f.parameterScope).variableBindings.ids.count v := by
  have hids : ∀ w ∈ (a.scopeAt f.parameterScope).variableBindings.ids,
      w.index < a.declaredVariables.size ∧ (a.variableAt w).owner = f.parameterScope := by
    intro w hw
    obtain ⟨x, hmem⟩ := Bindings.exists_of_mem_ids hw
    obtain ⟨hlt, _, howner⟩ := hc.variableBindings hmem
    exact ⟨hlt, howner⟩
  unfold Function.positions
  split
  · next ho =>
    rw [List.length_map, ← List.countP_eq_length_filter, List.count_eq_countP]
    calc
      _ = (f.signature.parameters.zipIdx.map Prod.fst).countP
          (fun q => decide (q = (a.variableAt v).parameter)) := List.countP_map.symm
      _ = (a.scopeAt f.parameterScope).variableBindings.ids.countP
          (fun w => decide ((a.variableAt w).parameter = (a.variableAt v).parameter)) := by
        rw [List.zipIdx_map_fst, ← hf, List.countP_map]
        rfl
      _ = _ := List.countP_congr fun w hw => ?_
    -- Among the parameters only the variable itself has its name.
    obtain ⟨hlt, howner⟩ := hids w hw
    simp only [decide_eq_true_eq, beq_iff_eq]
    constructor
    · intro he
      exact hr.variable_unique hlt hv (howner.trans ho) (congrArg Parameter.name he)
    · rintro rfl
      rfl
  · next ho =>
    rw [List.count_eq_zero.2 fun hmem => ho (hids v hmem).2.symm]
    rfl

end Counts

/-- A variable that one statement or one parameter declares, and that is bound in its own scope. -/
structure Program.VariableDeclared (p : Program) (v : VariableId) : Prop where
  once : p.occurrences.countP (fun o => o.2.declared? = some v) +
    (p.positions (p.arena.variableAt v)).length = 1
  direct : ∀ s n, (s, n) ∈ p.occurrences → n.declared? = some v →
    s = (p.arena.variableAt v).owner ∧ ∃ c ∈ p.blocks, c.scope = s ∧ n ∈ c.body
  type : (p.arena.variableAt v).type ∈ variableTypes
  bound : ∀ t name, (p.arena.scopeAt t).variableBindings.get? name = some v ↔
    t = (p.arena.variableAt v).owner ∧ name = (p.arena.variableAt v).name

/-- A function of the text that is bound in its own scope. -/
structure Program.FunctionDeclared (p : Program) (source : String) (f : FunctionId) : Prop where
  finished : ∃ T, tokenize source = .ok T ∧ (p.arena.functionAt f).Finished T p.arena
  bound : ∀ t name, (p.arena.scopeAt t).functionBindings.get? name = some f ↔
    t = (p.arena.functionAt f).owner ∧ name = (p.arena.functionAt f).signature.name

section Program

variable {ns : List Node} {L : List Site} {j : Nat} {b : Arena} {v : VariableId}
  {f : FunctionId}

theorem Passage.count_introduced (h : Passage T root 0 .fresh ns L j b)
    (hv : v.index < b.declaredVariables.size) : (L.flatMap (Site.introduced b)).count v = 1 := by
  obtain ⟨n, hn, hindices⟩ := h.introduced .fresh (by decide)
  have hsize : b.declaredVariables.size = n := hn.trans (Nat.zero_add n)
  have hnodup : (L.flatMap (Site.introduced b)).Nodup := by
    apply List.Nodup.of_map VariableId.index
    rw [hindices]
    exact List.nodup_range' 1
  have hmem : v.index ∈ (L.flatMap (Site.introduced b)).map (·.index) := by
    rw [hindices, ← hsize]
    exact List.mem_range'_1.2 ⟨Nat.zero_le _, Nat.lt_of_lt_of_eq hv (Nat.zero_add _).symm⟩
  obtain ⟨w, hw, hwv⟩ := List.mem_map.1 hmem
  exact List.count_eq_one_of_mem hnodup (VariableId.ext hwv ▸ hw)

/-- Every variable is introduced once in all, by a tree or at a position. -/
theorem Passage.once (h : Passage T root 0 .fresh ns L j b) (hc : b.Coherent) (hr : b.Registered)
    (hsites : (programOf T ns j b).sites.Perm L) (hv : v.index < b.declaredVariables.size) :
    (programOf T ns j b).occurrences.countP (fun o => o.2.declared? = some v) +
      ((programOf T ns j b).positions (b.variableAt v)).length = 1 := by
  have hcount := (hsites.flatMap_right (Site.introduced b)).count_eq v
  rw [h.count_introduced hv, Program.sites, List.flatMap_append, List.count_append,
    ScriptSyntax.count_introduced, functions_programOf, List.flatMap_map] at hcount
  rw [← hcount]
  congr 1
  -- The function of the top level has no parameters.
  have htop : (topOf T ns j).positions (b.variableAt v) = [] := by
    unfold Function.positions topOf
    split <;> rfl
  rw [Program.positions, declaredFunctions_programOf, Array.toList_push, List.flatMap_append,
    List.flatMap_singleton, htop, List.map_nil, List.append_nil, List.length_flatMap,
    List.count_flatMap]
  congr 1
  apply List.map_congr_left
  intro f hf
  have hf : f ∈ (programOf T ns j b).functions := functions_programOf ▸ hf
  have hf : Site.function f ∈ L :=
    hsites.mem_iff.1 (List.mem_append_right _ (List.mem_map_of_mem hf))
  rw [List.length_map]
  exact length_positions hc hr (h.functions .fresh (by decide) f hf).parameters hv

theorem variableDeclared_programOf (h : Passage T root 0 .fresh ns L j b) (hc : b.Coherent)
    (hr : b.Registered) (hsites : (programOf T ns j b).sites.Perm L)
    (hv : v.index < b.declaredVariables.size) : (programOf T ns j b).VariableDeclared v := by
  obtain ⟨_, htype, hget⟩ := hr.variableBound hv
  refine ⟨h.once hc hr hsites hv, fun s n hn hd => ?_, htype, fun t name => ⟨fun hbound => ?_, ?_⟩⟩
  · -- The tree is one of the sites, so it stands in the block of its scope.
    have hsite : Site.declare s n ∈ (programOf T ns j b).sites := by
      refine List.mem_append_left _ (List.mem_flatMap.2 ⟨_, hn, ?_⟩)
      cases n with
      | declare => exact List.mem_singleton_self _
      | _ => contradiction
    obtain ⟨⟨w, hw⟩, hplace⟩ := h.declares .fresh (by decide) s n (hsites.mem_iff.1 hsite)
    obtain rfl : v = w := Option.some.inj (hd.symm.trans hw.declared)
    refine ⟨hw.owner.symm, ?_⟩
    rw [Program.blocks, topLevel_programOf]
    rcases hplace with ⟨rfl, hmem⟩ | ⟨c, hmem, hbody⟩
    · exact ⟨_, List.mem_cons_self, rfl, hmem⟩
    · have hblocks := (hsites.flatMap_right Site.blocks).mem_iff (a := c)
      exact ⟨c, List.mem_cons_of_mem _ (hblocks.2 hmem), hbody⟩
  · obtain ⟨_, hname, howner⟩ := hc.variableBindings (Bindings.mem_of_get? hbound)
    exact ⟨howner.symm, hname.symm⟩
  · rintro ⟨rfl, rfl⟩
    exact hget

theorem functionDeclared_programOf {source : String} (h : Passage T root 0 .fresh ns L j b)
    (hc : b.Coherent) (hr : b.Registered) (hsites : (programOf T ns j b).sites.Perm L)
    (hT : tokenize source = .ok T) (hf : f.index < b.declaredFunctions.size) :
    (programOf T ns j b).FunctionDeclared source f := by
  have hfunction : (programOf T ns j b).arena.functionAt f = b.functionAt f :=
    functionAt_programOf.trans (if_neg (Nat.ne_of_lt hf))
  have hmem : b.functionAt f ∈ (programOf T ns j b).functions := by
    rw [functions_programOf]
    exact List.mem_of_getElem? (getElem?_declaredFunctions hf)
  have hsite : Site.function (b.functionAt f) ∈ L :=
    hsites.mem_iff.1 (List.mem_append_right _ (List.mem_map_of_mem hmem))
  have hfinished := h.functions .fresh (by decide) _ hsite
  refine ⟨⟨T, hT, ?_⟩, fun t name => ?_⟩
  · rw [hfunction]
    exact ⟨hfinished.standsIn, hfinished.body, hfinished.parameters⟩
  · rw [hfunction]
    constructor
    · intro hbound
      have hentry := Bindings.mem_of_get? hbound
      exact ⟨(hr.functionOwner hentry).2.symm, (hc.functionBindings hentry).2.symm⟩
    · rintro ⟨rfl, rfl⟩
      exact (hr.functionBound hf).2

/-- In a program every variable is declared by one statement or one parameter, and every function
but that of the top level by its head and its body in the text. Each is bound under its name in its
own scope and nowhere else, and no two of one scope share a name. -/
theorem declarations_have_one_site {limit : Nat} {source : String} {p : Program}
    (h : parse limit source = .ok p) :
    (∀ v : VariableId, v.index < p.arena.declaredVariables.size → p.VariableDeclared v) ∧
      (∀ f : FunctionId, f.index < p.arena.declaredFunctions.size → f ≠ p.top →
        p.FunctionDeclared source f) ∧
      ∀ t, (∀ v ∈ (p.arena.scopeAt t).variableBindings.ids,
          ∀ w ∈ (p.arena.scopeAt t).variableBindings.ids,
            (p.arena.variableAt v).name = (p.arena.variableAt w).name → v = w) ∧
        ∀ f ∈ (p.arena.scopeAt t).functionBindings.ids,
          ∀ g ∈ (p.arena.scopeAt t).functionBindings.ids,
            (p.arena.functionAt f).signature.name = (p.arena.functionAt g).signature.name →
              f = g := by
  obtain ⟨T, cs, hT, hp⟩ := Parser.programAt_of_parse h
  obtain ⟨ns, j, b, L, rfl, -, hpassage, hc, hsites⟩ := hp.passage
  have hr : b.Registered := (hpassage.steps .fresh (by decide)).keep Registered.step .fresh
  have hfunction : ∀ {f : FunctionId}, f.index < b.declaredFunctions.size →
      (programOf T ns j b).arena.functionAt f = b.functionAt f := fun hf =>
    functionAt_programOf.trans (if_neg (Nat.ne_of_lt hf))
  refine ⟨fun v hv => variableDeclared_programOf hpassage hc hr hsites hv, fun f hf hne => ?_,
    fun t => ⟨fun v hv w hw hname => ?_, fun f hf g hg hname => ?_⟩⟩
  · refine functionDeclared_programOf hpassage hc hr hsites hT ?_
    rw [declaredFunctions_programOf, Array.size_push] at hf
    exact (Nat.lt_succ_iff_lt_or_eq.1 hf).resolve_right fun he => hne (FunctionId.ext he)
  · obtain ⟨x, hv⟩ := Bindings.exists_of_mem_ids hv
    obtain ⟨y, hw⟩ := Bindings.exists_of_mem_ids hw
    obtain ⟨hlt, _, howner⟩ := hc.variableBindings hv
    obtain ⟨hlt', _, howner'⟩ := hc.variableBindings hw
    exact hr.variable_unique hlt hlt' (howner.trans howner'.symm) hname
  · obtain ⟨x, hf⟩ := Bindings.exists_of_mem_ids hf
    obtain ⟨y, hg⟩ := Bindings.exists_of_mem_ids hg
    obtain ⟨hlt, howner⟩ := hr.functionOwner hf
    obtain ⟨hlt', howner'⟩ := hr.functionOwner hg
    rw [hfunction hlt, hfunction hlt'] at hname
    exact hr.function_unique hlt hlt' (howner.trans howner'.symm) hname

/-- One variable is declared by a statement, one as a parameter, and both have the name of the
function around them. -/
theorem declarations_have_one_site_same_names :
    ∃ p, parse 8 "function void x(int x) \x7b int x = 1; \x7d" = .ok p ∧
      p.VariableDeclared ⟨0⟩ ∧ p.VariableDeclared ⟨1⟩ ∧
      p.FunctionDeclared "function void x(int x) \x7b int x = 1; \x7d" ⟨0⟩ := by
  have h : (match parse 8 "function void x(int x) \x7b int x = 1; \x7d" with
      | .ok p => decide (p.arena.declaredVariables.size = 2 ∧
          p.arena.declaredFunctions.size = 2 ∧ p.top = ⟨1⟩)
      | .error _ => false) = true := by decide +kernel
  split at h
  · next p hp =>
    obtain ⟨hvariables, hfunctions, htop⟩ := of_decide_eq_true h
    obtain ⟨hv, hf, -⟩ := declarations_have_one_site hp
    refine ⟨p, hp, hv _ ?_, hv _ ?_, hf _ ?_ ?_⟩
    · rw [hvariables]
      decide
    · rw [hvariables]
      decide
    · rw [hfunctions]
      decide
    · rw [htop]
      decide
  · contradiction

end Program

end ScriptSyntax
