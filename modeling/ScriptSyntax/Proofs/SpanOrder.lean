import ScriptSyntax.Proofs.Grammar.LaidBlocks
import ScriptSyntax.Proofs.Token.Lexical

/-!
The stretches of text that trees, blocks and functions take up lie within one another and never
overlap otherwise, and the statements and functions of a block follow one another.
-/

namespace ScriptSyntax

open Arena TokenList

variable {T : TokenList}

/-- A stretch of text from one token to the same one or a later. -/
def TokenList.Covers (T : TokenList) (t : Span) : Prop :=
  t.start ≤ t.finish ∧ ∃ k m, k ≤ m ∧ m < T.size ∧ t = T.span k m

/-- The statements of a block and the functions declared in it, put in one order, follow one another
within the block. -/
def Program.InOrder (p : Program) (c : Block) : Prop :=
  ∃ ms : List (Node ⊕ Function), ms.filterMap Sum.getLeft? = c.body ∧
    ms.filterMap Sum.getRight? = p.functions.filter (·.owner = c.scope) ∧
    c.span.Holds (ms.map memberSpan)

section Program

variable {ns : List Node} {j k m : Nat} {b : Arena}

theorem TokenList.Ordered.covers (hT : T.Ordered) (hkm : k ≤ m) (hm : m < T.size) :
    T.Covers (T.span k m) :=
  ⟨(hT.le_iff (by omega) (by omega)).2 hkm, k, m, hkm, hm, rfl⟩

theorem TokenList.Lays.holds {n : Node} (h : T.Lays n) (hT : T.Ordered) :
    T.Covers n.span ∧ n.span.Holds n.partSpans := by
  obtain ⟨k, m, hkm, hm, hspan, hparts⟩ := h
  rw [hspan]
  exact ⟨hT.covers hkm hm, hparts.holds hT hkm (Nat.le_refl _) (Nat.le_of_lt hm)⟩

theorem blocks_ofOccurrence (o : ScopeId × Node) :
    (Site.ofOccurrence o).flatMap Site.blocks = o.2.bodies := by
  obtain ⟨s, n⟩ := o
  cases n with
  | branch _ _ elseBody => cases elseBody <;> rfl
  | giveBack value => cases value <;> rfl
  | _ => rfl

/-- The blocks inside the top level are in its trees and in those of the functions, or are the
bodies of these. -/
theorem mem_sites_blocks {c : Block} (hc : c ∈ (programOf T ns j b).sites.flatMap Site.blocks) :
    c ∈ blocksOf (occurrencesOf root ns) b.declaredFunctions.toList := by
  rw [Program.sites, List.flatMap_append, List.mem_append, List.flatMap_assoc, List.flatMap_map,
    functions_programOf, occurrences_programOf] at hc
  simp only [blocks_ofOccurrence] at hc
  rw [blocksOf, List.mem_append]
  refine hc.imp (fun hc => ?_) fun hc => ?_
  · rw [List.flatMap_append, List.mem_append] at hc
    rw [treesOf, List.flatMap_append, List.mem_append]
    exact hc.symm
  · obtain ⟨f, hf, hc⟩ := List.mem_flatMap.1 hc
    exact List.mem_map.2 ⟨f, hf, (List.mem_singleton.1 hc).symm⟩

theorem TokenList.LaysBlock.holds {c : Block} (h : T.LaysBlock (programOf T ns j b).functions c)
    (hT : T.Ordered) : T.Covers c.span ∧ (programOf T ns j b).InOrder c := by
  obtain ⟨k, m, hkm, hm, hspan, ms, hns, hF, hms⟩ := h
  have hholds := hms.holds hT hkm (Nat.le_refl _) (Nat.le_of_lt hm)
  exact ⟨hspan ▸ hT.covers hkm hm, ms, hns, hF, hspan ▸ hholds⟩

/-- The parameters of a function are the variables of a scope of its own. -/
theorem TokenList.LaysFunction.holds {f : Function} (h : T.LaysFunction b f) (hT : T.Ordered)
    (hr : b.Registered) : T.Covers f.span ∧ f.span.Encloses f.body.span ∧
      ∀ v : VariableId, v.index < b.declaredVariables.size →
        (b.variableAt v).owner = f.parameterScope →
          f.span.Encloses (.single (b.variableAt v).location) := by
  obtain ⟨k, l, m, hkl, hlm, hm, hspan, hbody, hparameters⟩ := h
  rw [hspan, hbody]
  refine ⟨hT.covers (by omega) hm, ?_, fun v hv howner => ?_⟩
  · exact (hT.encloses_iff (by omega) (by omega) (by omega) hlm).2 ⟨by omega, Nat.le_refl _⟩
  · obtain ⟨_, _, hget⟩ := hr.variableBound hv
    rw [howner] at hget
    obtain ⟨x, hkx, hxl, hlocation⟩ :=
      hparameters v (List.mem_map_of_mem (Bindings.mem_of_get? hget))
    have hsingle : Span.single (T.get x).location = T.span x x := rfl
    rw [hlocation, hsingle]
    exact (hT.encloses_iff (by omega) (by omega) (by omega) (Nat.le_refl _)).2
      ⟨by omega, by omega⟩

/-- Every tree, block and function of a program takes up a stretch of tokens, and the top level all
of the text. What stands inside another lies within its stretch, in the order of the text and
without overlap; in a block that holds for its statements and the functions declared there together.
A function holds its body and its parameters. -/
theorem spans_nest_in_order {limit : Nat} {source : String} {p : Program}
    (h : parse limit source = .ok p) :
    ∃ T, tokenize source = .ok T ∧
      (p.topLevel.span = T.span 0 T.size ∧ p.topLevel.body.span = T.span 0 T.size ∧
        p.topLevel.signature.parameters = [] ∧
        p.topLevel.span.start ≤ p.topLevel.span.finish) ∧
      (∀ o ∈ p.occurrences, T.Covers o.2.span ∧ o.2.span.Holds o.2.partSpans) ∧
      (∀ c ∈ p.blocks, (c = p.topLevel.body ∨ T.Covers c.span) ∧ p.InOrder c) ∧
      ∀ f ∈ p.functions, T.Covers f.span ∧ f.span.Encloses f.body.span ∧
        ∀ v : VariableId, v.index < p.arena.declaredVariables.size →
          (p.arena.variableAt v).owner = f.parameterScope →
            f.span.Encloses (.single (p.arena.variableAt v).location) := by
  obtain ⟨T, cs, hscan, hp⟩ := Parser.programAt_of_parse h
  have hT : T.Ordered := ordered_of_tokenize hscan
  obtain ⟨ns, j, b, rfl, hitems, hend⟩ : ∃ ns j b, p = programOf T ns j b ∧
      ItemsAt T root 0 .fresh cs ns j b ∧ (T.get j).kind = .endOfInput := by
    cases hp with
    | mk hitems hend => exact ⟨_, _, _, rfl, hitems, hend⟩
  obtain rfl : j = T.size :=
    eq_size_of_end (lexical_of_tokenize hscan) (hitems.le_size (Nat.zero_le _)) hend
  obtain ⟨L, hpassage, -⟩ := hitems.passage .fresh (by decide)
  have hr : b.Registered := (hpassage.steps .fresh (by decide)).keep Registered.step .fresh
  obtain ⟨hrun, hmembers⟩ := hitems.lays .fresh (by decide)
  have hF : Arena.fresh.functionsSince b = (programOf T ns T.size b).functions :=
    functions_programOf.symm
  have htop := (hT.le_iff (Nat.zero_le _) (Nat.le_refl _)).2 (Nat.zero_le T.size)
  refine ⟨T, hscan, ?_, fun o ho => ?_, fun c hc => ?_, fun f hf => ?_⟩
  · rw [topLevel_programOf]
    exact ⟨rfl, rfl, rfl, htop⟩
  · refine (hrun.trees o ?_).holds hT
    rw [occurrences_programOf] at ho
    exact List.mem_append.2 (List.mem_append.1 ho).symm
  · rw [Program.blocks, topLevel_programOf] at hc
    rcases List.mem_cons.1 hc with rfl | hc
    · obtain ⟨ms, hns, hms, hturn⟩ := hmembers
      refine ⟨.inl (congrArg Function.body topLevel_programOf).symm, ms, hns, hF ▸ hms, ?_⟩
      exact hturn.holds hT (Nat.zero_le _) (Nat.le_succ _) (Nat.le_refl _)
    · have hlays := (hrun.blocks c (mem_sites_blocks hc)).1
      rw [hF] at hlays
      exact (hlays.holds hT).imp_left .inr
  · exact (hrun.functions f (hF ▸ hf)).1.holds hT hr

/-- A function with parameters between two statements, and in its body an operand in parentheses. -/
theorem spans_nest_in_order_function :
    ∃ p, parse 8 "int a = 1; function int f(int x, int y) \x7b return (x + a) * 2; \x7d print(a);" =
        .ok p ∧
      (∃ c ∈ p.blocks, c.body.length = 2 ∧ p.InOrder c) ∧
      ∃ f ∈ p.functions, f.signature.parameters.length = 2 ∧ f.span.Encloses f.body.span := by
  have h : (match parse 8
        "int a = 1; function int f(int x, int y) \x7b return (x + a) * 2; \x7d print(a);" with
      | .ok p => decide (p.topLevel.body.body.length = 2 ∧
          p.functions.map (·.signature.parameters.length) = [2])
      | .error _ => false) = true := by decide +kernel
  split at h
  · next p hp =>
    obtain ⟨hbody, hsignatures⟩ := of_decide_eq_true h
    obtain ⟨T, -, -, -, hblocks, hfunctions⟩ := spans_nest_in_order hp
    obtain ⟨f, hf, hlength⟩ := List.mem_map.1 (hsignatures ▸ List.mem_singleton_self 2)
    have htop : p.topLevel.body ∈ p.blocks := List.mem_cons_self
    exact ⟨p, hp, ⟨_, htop, hbody, (hblocks _ htop).2⟩, f, hf, hlength, (hfunctions f hf).2.1⟩
  · contradiction

end Program

end ScriptSyntax
