import Mathlib.Data.List.Perm.Basic
import ScriptSyntax.Proofs.Grammar.Reading
import ScriptSyntax.Proofs.Program.Site
import ScriptSyntax.Proofs.Scope.Step

/-!
Reading as a passage through the text, which comes across blocks, declarations of variables and
functions one after another. All else that the rules say is left out.
-/

namespace ScriptSyntax

open Arena

/-- The body of a function whose parameters belong to scope `q`. -/
inductive BodyAt (T : TokenList) (g : Signature) (q : ScopeId) :
    Nat → Arena → Block → Nat → Arena → Prop
  | block {i a cs block j b} : BlockAt T q i a cs block j b → BodyAt T g q i a block j b
  | native {i a r b} : (T.get i).kind = Keyword.nativeKw → (T.get (i + 1)).kind = .stringLiteral →
    (T.get (i + 2)).kind = Symbol.semicolon → a.pushScope (some q) = (r, b) →
    BodyAt T g q i a (nativeBlock g (T.get (i + 1)).text r
      ⟨(T.get i).location, (T.get (i + 2)).location⟩) (i + 3) b

mutual

/-- The sites at slots `i` up to `j`, which are read in scope `s`. All trees that declare a variable
in that scope are among `ns`. -/
inductive Passage (T : TokenList) :
    ScopeId → Nat → Arena → List Node → List Site → Nat → Arena → Prop
  | quiet {s i a ns j} : i ≤ j → Passage T s i a ns [] j a
  | declare {s i a x v n span j b} : i ≤ j → x.owner = s → x.type ∈ variableTypes →
    a.defineVariable s x false = .ok (v, b) →
    Passage T s i a [.declare v n span] [.declare s (.declare v n span)] j b
  | block {s i a ns block L j b} : Enclosure T s i a block L j b →
    Passage T s i a ns (.block s block :: L) j b
  | function {s i a ns g f q j d block L k b} : HeadAt T s i a g f q j d →
    BodyAt T g q j d block k b → Enclosure T q j d block L k b →
    Passage T s i a ns
      (.function ⟨g, s, q, block, ⟨(T.get i).location, block.span.finish⟩⟩ :: L) k
      (b.setBody f block ⟨(T.get i).location, block.span.finish⟩)
  | append {s i a ns L j b ms M k c} : Passage T s i a ns L j b → Passage T s j b ms M k c →
    Passage T s i a (ns ++ ms) (L ++ M) k c

/-- The sites inside a block that is opened in scope `s`. -/
inductive Enclosure (T : TokenList) :
    ScopeId → Nat → Arena → Block → List Site → Nat → Arena → Prop
  | mk {s i l a q b ns L j c} : i < l → a.pushScope (some s) = (q, b) →
    Passage T q l b ns L j c →
    Enclosure T s i a ⟨q, ns, ⟨(T.get i).location, (T.get j).location⟩⟩ L (j + 1) c

end

variable {T : TokenList}

mutual

theorem Passage.le {s i a ns L j b} (h : Passage T s i a ns L j b) : i ≤ j := by
  match h with
  | .quiet hij | .declare hij _ _ _ => exact hij
  | .block h => exact Nat.le_of_lt h.lt
  | .function hh _ h => exact Nat.le_of_lt (Nat.lt_trans hh.lt h.lt)
  | .append h h' => exact Nat.le_trans h.le h'.le

theorem Enclosure.lt {s i a block L j b} (h : Enclosure T s i a block L j b) : i < j := by
  match h with
  | .mk hil _ h => exact Nat.lt_succ_of_lt (Nat.lt_of_lt_of_le hil h.le)

end

mutual

theorem Passage.frame {s i a ns L j b} (h : Passage T s i a ns L j b) (hc : a.Coherent)
    (hs : s.index < a.scopeCount) : Frame (some s) a b ∧ b.Coherent := by
  match h with
  | .quiet _ => exact ⟨.refl _ _, hc⟩
  | .declare _ hx _ hd =>
    have hd := variableDefined hd
    exact ⟨.defineVariable hd, hc.defineVariable hd hs hx⟩
  | .block h =>
    obtain ⟨hf, hc⟩ := h.frame hc hs
    exact ⟨hf.weaken _, hc⟩
  | .function hh _ h =>
    have hd := hh.declared hc hs
    obtain ⟨hf, hc⟩ := h.frame hd.coherent hd.lt
    exact ⟨(hd.frame.trans (hf.weaken _)).setBody (Nat.le_of_eq hd.id.symm), hc.setBody⟩
  | .append h h' =>
    obtain ⟨hf, hc⟩ := h.frame hc hs
    obtain ⟨hf', hc⟩ := h'.frame hc (Nat.lt_of_lt_of_le hs hf.scopeCount)
    exact ⟨hf.trans hf', hc⟩

theorem Enclosure.frame {s i a block L j b} (h : Enclosure T s i a block L j b)
    (hc : a.Coherent) (hs : s.index < a.scopeCount) : Frame none a b ∧ b.Coherent := by
  match h with
  | .mk _ hp h =>
    have hp := scopePushed hp hs
    obtain ⟨hf, hc⟩ := h.frame (hc.pushScope hp) hp.lt
    exact ⟨(Frame.pushScope hp).close hf (Nat.le_of_eq hp.id.symm), hc⟩

end

theorem mem_variableTypes {k : TokenKind} {t : ValueType} (h : ValueType.ofKind? k = some t)
    (ht : t ≠ .void) : t ∈ variableTypes := by
  unfold ValueType.ofKind? at h
  split at h <;> cases h
  · decide
  · decide
  · decide
  · exact absurd rfl ht

theorem ParametersAt.types {i ps j} (h : ParametersAt T i ps j) :
    ∀ p ∈ ps, p.1 ∈ variableTypes := by
  induction h with
  | done _ => exact fun p hp => absurd hp List.not_mem_nil
  | more ht hv _ _ _ ih =>
    intro p hp
    rcases List.mem_cons.1 hp with rfl | hp
    · exact mem_variableTypes ht hv
    · exact ih p hp

theorem DefinesAll.steps {q : ScopeId} {a b : Arena} {ps : List (ValueType × Token)}
    (h : DefinesAll q a ps b) (ht : ∀ p ∈ ps, p.1 ∈ variableTypes) (hq : q.index < a.scopeCount) :
    Steps a b := by
  induction h with
  | nil => exact .refl
  | cons hd _ ih =>
    have hd := variableDefined hd
    have hstep := Step.declare hq rfl (ht _ List.mem_cons_self) hd
    exact .head hstep (ih (fun p hp => ht p (List.mem_cons_of_mem _ hp)) (hd.scopeCount ▸ hq))

theorem HeadAt.steps {s i a g f q j d} (h : HeadAt T s i a g f q j d)
    (hs : s.index < a.scopeCount) : Steps a d := by
  cases h with
  | mk _ _ _ _ hps hp hdefines hd =>
    have hp := scopePushed hp hs
    have hparameters := hdefines.steps hps.types hp.lt
    have hcount := hdefines.scopeCount_eq.trans hp.scopeCount
    have hdefine := Step.define (s := s) (by omega) rfl (functionDefined hd)
    exact (Relation.ReflTransGen.head (.scope hp) hparameters).tail hdefine

mutual

theorem Passage.steps {s i a ns L j b} (h : Passage T s i a ns L j b) (hc : a.Coherent)
    (hs : s.index < a.scopeCount) : Steps a b := by
  match h with
  | .quiet _ => exact .refl
  | .declare _ hx ht hd => exact .single (.declare hs hx ht (variableDefined hd))
  | .block h => exact h.steps hc hs
  | .function hh _ h =>
    have hd := hh.declared hc hs
    exact ((hh.steps hs).trans (h.steps hd.coherent hd.lt)).tail .body
  | .append h h' =>
    obtain ⟨hf, hcb⟩ := h.frame hc hs
    exact (h.steps hc hs).trans (h'.steps hcb (Nat.lt_of_lt_of_le hs hf.scopeCount))

theorem Enclosure.steps {s i a block L j b} (h : Enclosure T s i a block L j b)
    (hc : a.Coherent) (hs : s.index < a.scopeCount) : Steps a b := by
  match h with
  | .mk _ hp h =>
    have hp := scopePushed hp hs
    exact .head (.scope hp) (h.steps (hc.pushScope hp) hp.lt)

end

/-- The functions declared between two arenas. -/
def Arena.functionsSince (a b : Arena) : List Function :=
  b.declaredFunctions.toList.drop a.declaredFunctions.size

def Function.sites (f : Function) : List Site :=
  .function f :: f.body.occurrences.flatMap Site.ofOccurrence

/-- The sites in the trees `os` and in the functions declared between two arenas, in any order. -/
def Sited (os : List (ScopeId × Node)) (a b : Arena) (L : List Site) : Prop :=
  (os.flatMap Site.ofOccurrence ++ (a.functionsSince b).flatMap Function.sites).Perm L

section Functions

variable {a b c d : Arena} {o : Option ScopeId}

theorem functionsSince_of_eq (h : b.declaredFunctions = a.declaredFunctions) :
    a.functionsSince b = [] := by
  rw [functionsSince, h, ← Array.length_toList, List.drop_length]

theorem getElem?_declaredFunctions {f : FunctionId} (h : f.index < a.declaredFunctions.size) :
    a.declaredFunctions.toList[f.index]? = some (a.functionAt f) := by
  simp [functionAt, h]

/-- What is declared later stands behind the functions of before. -/
theorem functionsSince_append (hab : a.declaredFunctions.size ≤ b.declaredFunctions.size)
    (hf : Frame o b c) : a.functionsSince c = a.functionsSince b ++ b.functionsSince c := by
  have hold : c.declaredFunctions.toList.take b.declaredFunctions.size =
      b.declaredFunctions.toList := by
    apply List.ext_getElem?
    intro i
    rw [List.getElem?_take]
    split
    · next hi =>
      have hc := getElem?_declaredFunctions (f := ⟨i⟩) (Nat.lt_of_lt_of_le hi hf.functionCount)
      have hb := getElem?_declaredFunctions (f := ⟨i⟩) hi
      rw [hc, hb, hf.functionAt hi]
    · next hi => exact (List.getElem?_eq_none (Nat.le_of_not_lt hi)).symm
  unfold functionsSince
  rw [← List.drop_append_of_le_length (by rwa [Array.length_toList]), ← hold,
    List.take_append_drop]

/-- A function is declared before those in its body. -/
theorem HeadDeclared.functionsSince {s i g f q} {block : Block} {span : Span}
    (h : HeadDeclared T s i a g f q d) (hf : Frame none d c) :
    a.functionsSince (c.setBody f block span) =
      ⟨g, s, q, block, span⟩ :: d.functionsSince c := by
  have hid := h.id
  have hcount := h.functionCount
  have := hf.functionCount
  apply List.ext_getElem?
  rintro (_ | i)
  · have hself : (c.setBody f block span).functionAt f = _ := functionAt_setBody
    rw [if_pos ⟨rfl, by omega⟩, hf.functionAt (by omega), h.head] at hself
    have hlt : f.index < (c.setBody f block span).declaredFunctions.size := by
      rw [setBody_size]
      omega
    rw [Arena.functionsSince, List.getElem?_drop, ← hid, Nat.add_zero]
    exact (getElem?_declaredFunctions hlt).trans (congrArg some hself)
  · have hne : f.index ≠ a.declaredFunctions.size + (i + 1) := by omega
    rw [Arena.functionsSince, List.getElem?_drop, List.getElem?_cons_succ, Arena.functionsSince,
      List.getElem?_drop, hcount, Nat.add_right_comm]
    simp [setBody, hne, Nat.add_assoc]

end Functions

namespace Sited

variable {os os' : List (ScopeId × Node)} {a b c : Arena} {L M : List Site} {o : Option ScopeId}

theorem append (hab : a.declaredFunctions.size ≤ b.declaredFunctions.size) (hf : Frame o b c)
    (h : Sited os a b L) (h' : Sited os' b c M) : Sited (os ++ os') a c (L ++ M) := by
  -- The functions of the first part change places with the trees of the second.
  have hswap : ∀ l₁ l₂ m₁ m₂ : List Site,
      ((l₁ ++ m₁) ++ (l₂ ++ m₂)).Perm ((l₁ ++ l₂) ++ (m₁ ++ m₂)) := by
    intro l₁ l₂ m₁ m₂
    simp only [List.append_assoc]
    exact (List.perm_append_comm_assoc m₁ l₂ m₂).append_left l₁
  unfold Sited
  rw [functionsSince_append hab hf, List.flatMap_append, List.flatMap_append]
  exact (hswap _ _ _ _).trans (List.Perm.append h h')

theorem cons (p : ScopeId × Node) (h : Sited os a b L) :
    Sited (p :: os) a b (Site.ofOccurrence p ++ L) := by
  unfold Sited
  rw [List.flatMap_cons, List.append_assoc]
  exact h.append_left _

theorem tree {s : ScopeId} {n : Node} (h : Sited (n.occurrences s) a b L) :
    Sited (occurrencesOf s (some n).toList) a b L := by
  rwa [Option.toList, occurrencesOf_singleton]

/-- Expressions have no sites. -/
theorem expressions (ho : ∀ p ∈ os, p.2.isExpression)
    (hf : b.declaredFunctions = a.declaredFunctions) : Sited os a b [] := by
  have hnone : os.flatMap Site.ofOccurrence = [] := by
    rw [List.flatMap_eq_nil_iff]
    rintro ⟨s, n⟩ hp
    have hn := ho _ hp
    cases n <;> first | rfl | contradiction
  unfold Sited
  rw [hnone, functionsSince_of_eq hf]
  exact .refl _

end Sited

theorem Placed.expressions {a s i n j} (h : Placed T a s i n j) :
    ∀ p ∈ n.occurrences s, p.2.isExpression := by
  obtain ⟨_, _, _, _, _, _, _, hw⟩ := h
  exact fun p hp => (hw p hp).expression

/-- An expression in front of a block. -/
theorem Sited.behind {a b s i k n} {block : Block} {L : List Site} (hn : Placed T a s i n k)
    (hf : Frame none a b) (h : Sited block.occurrences a b L) :
    Sited (n.occurrences s ++ block.occurrences) a b L :=
  (Sited.expressions hn.expressions rfl).append (Nat.le_refl _) hf h

/-- Nothing is declared in front of a block. -/
theorem Enclosure.passage {s i l a block L j b} (h : Enclosure T s l a block L j b) (hil : i ≤ l)
    (ns : List Node) : Passage T s i a ns (.block s block :: L) j b := by
  have hquiet : Passage T s i a [] [] l a := .quiet hil
  exact hquiet.append (.block h)

theorem enclosure_native {q r i a b target} {g : Signature} (h : a.pushScope (some q) = (r, b)) :
    Enclosure T q i a (nativeBlock g target r ⟨(T.get i).location, (T.get (i + 2)).location⟩) []
      (i + 3) b :=
  .mk (Nat.lt_succ_self i) h (.quiet (Nat.le_succ (i + 1)))

-- Expressions have no sites. A statement has those of its blocks and its own, in the order of the
-- text; among its trees they may stand in another order.
mutual

theorem StatementAt.passage {s i a c o j b} (h : StatementAt T s i a c o j b) (hc : a.Coherent)
    (hs : s.index < a.scopeCount) :
    ∃ L, Passage T s i a o.toList L j b ∧ Sited (occurrencesOf s o.toList) a b L := by
  have hij := Nat.le_of_lt h.lt
  match h with
  | .expression _ _ h _ =>
    refine ⟨[], .quiet hij, ?_⟩
    exact .tree (.expressions h.placed.expressions rfl)
  | .declare (x := v) ht hv _ _ h hd _ =>
    have hsame := (variableDefined hd).declaredFunctions
    refine ⟨_, .declare hij rfl (mem_variableTypes ht hv) hd, ?_⟩
    exact .tree ((Sited.expressions h.placed.expressions hsame).cons _)
  | .assign _ _ _ h _ | .giveBack _ h _ =>
    refine ⟨[], .quiet hij, ?_⟩
    exact .tree ((Sited.expressions h.placed.expressions rfl).cons _)
  | .print _ _ h _ =>
    obtain ⟨_, _, _, _, hw⟩ := h.placed
    refine ⟨[], .quiet hij, ?_⟩
    exact .tree ((Sited.expressions (fun p hp => (hw p hp).expression) rfl).cons _)
  | .giveBackNothing _ _ =>
    refine ⟨[], .quiet hij, ?_⟩
    exact .tree ((Sited.expressions (fun p hp => absurd hp List.not_mem_nil) rfl).cons _)
  | .block hb =>
    obtain ⟨L, he, hL⟩ := hb.enclosure hc hs
    refine ⟨_, .block he, ?_⟩
    exact .tree (hL.cons _)
  | .branch _ _ h _ hb _ | .whileLoop _ _ h _ hb | .forLoop _ _ _ _ _ h _ hb =>
    obtain ⟨hf, _⟩ := hb.frame hc hs
    obtain ⟨L, he, hL⟩ := hb.enclosure hc hs
    have := h.lt
    refine ⟨_, he.passage (by omega) _, ?_⟩
    exact .tree ((hL.behind h.placed hf).cons _)
  | .branchElse _ _ h _ hb _ hb' =>
    obtain ⟨hf, hcb⟩ := hb.frame hc hs
    have hsb := Nat.lt_of_lt_of_le hs hf.scopeCount
    obtain ⟨hf', _⟩ := hb'.frame hcb hsb
    obtain ⟨L, he, hL⟩ := hb.enclosure hc hs
    obtain ⟨M, he', hM⟩ := hb'.enclosure hcb hsb
    have := h.lt
    refine ⟨_, (he.passage (i := i) (by omega) []).append (he'.passage (Nat.le_succ _) _), ?_⟩
    -- The tree holds both blocks, and what is inside the first comes in front of the second.
    have hboth := (hL.behind h.placed hf).append hf.functionCount hf' hM
    have hmiddle : ∀ x, (x :: (L ++ M)).Perm (L ++ x :: M) := fun _ => List.perm_middle.symm
    exact .tree ((hboth.cons _).trans ((hmiddle _).cons _))
  | .function hh hb =>
    have hd := hh.declared hc hs
    obtain ⟨hf, _⟩ := hb.frame hd.coherent hd.lt
    obtain ⟨L, he, hL⟩ := hb.enclosure hd.coherent hd.lt
    refine ⟨_, .function hh (.block hb) he, ?_⟩
    unfold Sited
    rw [hd.functionsSince hf]
    exact List.Perm.cons _ hL
  | .native hh hk ht hm hr =>
    have hd := hh.declared hc hs
    have hf := Frame.pushScope (scopePushed hr hd.lt)
    refine ⟨_, .function hh (.native hk ht hm hr) (enclosure_native hr), ?_⟩
    unfold Sited
    rw [hd.functionsSince hf, functionsSince_of_eq (scopePushed hr hd.lt).declaredFunctions]
    exact .refl _

theorem ItemsAt.passage {s i a cs ns j b} (h : ItemsAt T s i a cs ns j b) (hc : a.Coherent)
    (hs : s.index < a.scopeCount) :
    ∃ L, Passage T s i a ns L j b ∧ Sited (occurrencesOf s ns) a b L := by
  match h with
  | .nil =>
    exact ⟨[], .quiet (Nat.le_refl _), .expressions (fun p hp => absurd hp List.not_mem_nil) rfl⟩
  | .semicolon _ h =>
    obtain ⟨L, hp, hL⟩ := h.passage hc hs
    have hquiet : Passage T s i a [] [] (i + 1) a := .quiet (Nat.le_succ i)
    exact ⟨L, hquiet.append hp, hL⟩
  | .cons h ht =>
    obtain ⟨hf, hcb⟩ := h.frame hc hs
    have hsb := Nat.lt_of_lt_of_le hs hf.scopeCount
    obtain ⟨hf', _⟩ := ht.frame hcb hsb
    obtain ⟨L, hp, hL⟩ := h.passage hc hs
    obtain ⟨M, hp', hM⟩ := ht.passage hcb hsb
    refine ⟨L ++ M, hp.append hp', ?_⟩
    rw [occurrencesOf_append]
    exact hL.append hf.functionCount hf' hM

theorem BlockAt.enclosure {s i a cs block j b} (h : BlockAt T s i a cs block j b)
    (hc : a.Coherent) (hs : s.index < a.scopeCount) :
    ∃ L, Enclosure T s i a block L j b ∧ Sited block.occurrences a b L := by
  match h with
  | .mk _ hp h _ =>
    have hpushed := scopePushed hp hs
    obtain ⟨L, hpassage, hL⟩ := h.passage (hc.pushScope hpushed) hpushed.lt
    refine ⟨L, .mk (Nat.lt_succ_self _) hp hpassage, ?_⟩
    unfold Sited functionsSince at hL ⊢
    rwa [hpushed.declaredFunctions] at hL

end

section Program

variable {ns : List Node} {j : Nat} {b : Arena}

/-- The function that the top level makes up. -/
def topOf (T : TokenList) (ns : List Node) (j : Nat) : Function :=
  let span : Span := ⟨(T.get 0).location, (T.get j).location⟩
  ⟨⟨.void, Program.topName, []⟩, root, root, ⟨root, ns, span⟩, span⟩

theorem declaredFunctions_programOf : (programOf T ns j b).arena.declaredFunctions =
    b.declaredFunctions.push (topOf T ns j) := rfl

theorem functionAt_programOf {f : FunctionId} : (programOf T ns j b).arena.functionAt f =
    if f.index = b.declaredFunctions.size then topOf T ns j else b.functionAt f :=
  functionAt_of_push declaredFunctions_programOf

theorem topLevel_programOf : (programOf T ns j b).topLevel = topOf T ns j :=
  functionAt_programOf.trans (if_pos rfl)

theorem functions_programOf : (programOf T ns j b).functions = b.declaredFunctions.toList := by
  have hlength : b.declaredFunctions.toList.length = b.declaredFunctions.size :=
    Array.length_toList
  have htop : (programOf T ns j b).top.index = b.declaredFunctions.toList.length := hlength.symm
  rw [Program.functions, declaredFunctions_programOf, Array.toList_push, htop,
    List.eraseIdx_append_of_length_le (Nat.le_refl _), Nat.sub_self, List.eraseIdx_zero]
  exact List.append_nil _

theorem occurrences_programOf : (programOf T ns j b).occurrences =
    b.declaredFunctions.toList.flatMap (fun f => f.body.occurrences) ++
      occurrencesOf root ns := by
  rw [Program.occurrences, declaredFunctions_programOf, Array.toList_push, List.flatMap_append,
    List.flatMap_singleton, topOf, Block.occurrences]

/-- The sites of a program are those of its top level and of the functions. -/
theorem Sited.program {L : List Site} (h : Sited (occurrencesOf root ns) .fresh b L) :
    (programOf T ns j b).sites.Perm L := by
  have hfunctions : Arena.fresh.functionsSince b = b.declaredFunctions.toList := List.drop_zero
  unfold Sited at h
  rw [hfunctions] at h
  have hbodies := List.map_append_flatMap_perm b.declaredFunctions.toList Site.function
    fun f => f.body.occurrences.flatMap Site.ofOccurrence
  rw [Program.sites, functions_programOf, occurrences_programOf, List.flatMap_append,
    List.flatMap_assoc, List.append_assoc]
  refine .trans List.perm_append_comm ?_
  rw [List.append_assoc]
  exact (hbodies.append_left _).trans h

/-- A program comes of one passage through its text. -/
theorem ProgramAt.passage {cs p} (h : ProgramAt T cs p) :
    ∃ ns j b L, p = programOf T ns j b ∧ j ≤ T.size ∧ Passage T root 0 .fresh ns L j b ∧
      b.Coherent ∧ p.sites.Perm L := by
  cases h with
  | mk h _ =>
    obtain ⟨L, hp, hL⟩ := h.passage .fresh (by decide)
    obtain ⟨_, hc⟩ := h.frame .fresh (by decide)
    exact ⟨_, _, _, L, rfl, h.le_size (Nat.zero_le _), hp, hc, hL.program⟩

end Program

end ScriptSyntax
