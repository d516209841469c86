import ScriptSyntax.Proofs.Nesting

/-!
How a tree lies over its tokens: it begins and ends at a token, and its parts follow one another in
between.
-/

namespace ScriptSyntax

/-- The stretches of text that the trees and blocks right inside a tree take up, as they follow one
another. -/
def Node.partSpans : Node → List Span
  | .int .. | .double .. | .string .. | .load .. | .nativeCall .. | .giveBack none _ => []
  | .declare _ value _ | .assign _ _ value _ | .unary _ value _ | .giveBack (some value) _ =>
    [value.span]
  | .binary _ left right _ => [left.span, right.span]
  | .call _ _ arguments _ | .print arguments _ => arguments.map Node.span
  | .block body => body.body.map Node.span
  | .branch condition thenBody none _ => [condition.span, thenBody.span]
  | .branch condition thenBody (some elseBody) _ =>
    [condition.span, thenBody.span, elseBody.span]
  | .whileLoop condition body _ | .forLoop _ condition body _ => [condition.span, body.span]

/-- A stretch of text holds others, each behind the end of the one before. -/
structure Span.Holds (t : Span) (us : List Span) : Prop where
  inside : ∀ u ∈ us, t.Encloses u
  apart : us.Pairwise fun u v => u.finish < v.start

namespace TokenList

/-- Stretches at slots `i` up to `j`, each of whole tokens and behind the one before. -/
inductive InTurn (T : TokenList) : Nat → Nat → List Span → Prop
  | nil {i j} : i ≤ j → InTurn T i j []
  | cons {i j k t ts} : T.Spans i j t → InTurn T j k ts → InTurn T i k (t :: ts)

variable {T : TokenList} {i j k : Nat} {t : Span} {ts us : List Span}

theorem Spans.lt (h : T.Spans i j t) : i < j := by
  obtain ⟨k, m, hk, hkm, hm, -⟩ := h
  omega

/-- A stretch of one token. -/
theorem spans_single (hi : i ≤ k) (hk : k < j) : T.Spans i j (.single (T.get k).location) :=
  ⟨k, k, hi, Nat.le_refl _, hk, rfl⟩

namespace InTurn

theorem le (h : T.InTurn i j ts) : i ≤ j := by
  induction h with
  | nil h => exact h
  | cons ht _ ih => exact Nat.le_trans (Nat.le_of_lt ht.lt) ih

theorem single (h : T.Spans i j t) : T.InTurn i j [t] := .cons h (.nil (Nat.le_refl _))

theorem before (h : T.InTurn j k ts) (hi : i ≤ j) : T.InTurn i k ts := by
  cases h with
  | nil hj => exact .nil (Nat.le_trans hi hj)
  | cons ht h => exact .cons (ht.mono hi (Nat.le_refl _)) h

theorem append (h : T.InTurn i j ts) (h' : T.InTurn j k us) : T.InTurn i k (ts ++ us) := by
  induction h with
  | nil hij => exact h'.before hij
  | cons ht _ ih => exact .cons ht (ih h')

theorem behind (h : T.InTurn i j ts) (hk : j ≤ k) : T.InTurn i k ts := by
  have happend := h.append (.nil hk)
  rwa [List.append_nil] at happend

theorem sublist (h : T.InTurn i j us) (hs : ts.Sublist us) : T.InTurn i j ts := by
  induction hs generalizing i with
  | slnil => exact h
  | cons u _ ih =>
    cases h with
    | cons hu h => exact (ih h).before (Nat.le_of_lt hu.lt)
  | cons_cons u _ ih =>
    cases h with
    | cons hu h => exact .cons hu (ih h)

theorem spans (h : T.InTurn i j ts) : ∀ t ∈ ts, T.Spans i j t := by
  induction h with
  | nil _ => exact List.forall_mem_nil _
  | cons ht h ih =>
    intro u hu
    rcases List.mem_cons.1 hu with rfl | hu
    · exact ht.mono (Nat.le_refl _) h.le
    · exact (ih u hu).mono (Nat.le_of_lt ht.lt) (Nat.le_refl _)

/-- What follows begins behind the end of what is in front. -/
theorem pairwise (h : T.InTurn i j ts) (hT : T.Ordered) (hj : j ≤ T.size + 1) :
    ts.Pairwise fun t u => t.finish < u.start := by
  induction h with
  | nil _ => exact .nil
  | cons ht h ih =>
    refine List.pairwise_cons.2 ⟨fun u hu => ?_, ih hj⟩
    obtain ⟨k, m, _, _, hm, rfl⟩ := ht
    obtain ⟨k', m', hk', hkm', hm', rfl⟩ := h.spans u hu
    exact hT (by omega) (by omega)

theorem holds (h : T.InTurn i j ts) (hT : T.Ordered) (hi : i ≤ k) (hj : j ≤ k + 1)
    (hk : k ≤ T.size) : (T.span i k).Holds ts where
  inside t ht := by
    obtain ⟨l, m, hl, hlm, hm, rfl⟩ := h.spans t ht
    exact (hT.encloses_iff hk hi (by omega) hlm).2 ⟨hl, by omega⟩
  apart := h.pairwise hT (by omega)

end InTurn

/-- A tree takes up a stretch of tokens, and its parts follow one another within. -/
def Lays (T : TokenList) (n : Node) : Prop :=
  ∃ k m, k ≤ m ∧ m < T.size ∧ n.span = T.span k m ∧ T.InTurn k (m + 1) n.partSpans

/-- A tree of one token. -/
theorem lays_leaf {n : Node} (hi : i < T.size) (hspan : n.span = .single (T.get i).location)
    (hparts : n.partSpans = []) : T.Lays n := by
  refine ⟨i, i, Nat.le_refl _, hi, hspan, ?_⟩
  rw [hparts]
  exact .nil (Nat.le_succ _)

/-- A tree that ends with its last part. -/
theorem lays_last {n : Node} (hfirst : T.InTurn i j ts) (hlast : T.Spans j k t) (hk : k ≤ T.size)
    (hspan : n.span = ⟨(T.get i).location, t.finish⟩) (hparts : n.partSpans = ts ++ [t]) :
    T.Lays n ∧ T.Spans i k n.span := by
  obtain ⟨l, m, hl, hlm, hm, rfl⟩ := hlast
  have hij := hfirst.le
  refine ⟨⟨i, m, by omega, by omega, hspan, ?_⟩, i, m, Nat.le_refl _, by omega, hm, hspan⟩
  rw [hparts]
  exact hfirst.append (.single ⟨l, m, hl, hlm, Nat.lt_succ_self _, rfl⟩)

end TokenList

open TokenList

variable {T : TokenList}

theorem Placed.spans {a s i n j} (h : Placed T a s i n j) : T.Spans i j n.span := by
  obtain ⟨k, m, hk, hkm, hm, hstart, hfinish, -⟩ := h
  refine ⟨k, m, hk, hkm, hm, ?_⟩
  rw [TokenList.span, ← hstart, ← hfinish]

-- A tree begins at the slot its first part does and ends at the one its last part does. A chain has
-- its left part read before, whose slots are handed on as it grows.
mutual

theorem OperandAt.lays {a s i e n j} (h : OperandAt T a s i e n j) :
    ∀ o ∈ n.occurrences s, T.Lays o.2 := by
  have hsize := h.le_size
  match h with
  | .int hk _ | .double hk _ | .string hk | .load hk _ _ =>
    intro o ho
    obtain rfl := List.mem_singleton.1 ho
    exact lays_leaf (lt_size_of_kind hk (by decide)) rfl rfl
  | .call _ _ hes =>
    obtain ⟨⟨m, rfl, rfl, hm⟩, hmembers⟩ := hes.lays
    have := hm.le
    intro o ho
    rcases List.mem_cons.1 ho with rfl | ho
    · exact ⟨i, m, by omega, hsize, rfl, (hm.before (by omega)).behind (Nat.le_succ _)⟩
    · exact hmembers o ho
  | .unary _ he =>
    intro o ho
    rcases List.mem_cons.1 ho with rfl | ho
    · exact (lays_last (.nil (Nat.le_succ i)) he.placed.spans he.le_size rfl rfl).1
    · exact he.lays o ho
  | .parenthesised _ he _ => exact he.lays

theorem ChainAt.lays {a s least i e n j} (h : ChainAt T a s least i e n j) :
    ∀ o ∈ n.occurrences s, T.Lays o.2 := by
  match h with
  | .mk h₀ hc => exact hc.lays h₀.placed.spans h₀.lays

theorem ClimbAt.lays {a s least k i e₀ n₀ e n j} (h : ClimbAt T a s least i e₀ n₀ e n j)
    (hspan : T.Spans k i n₀.span) (h₀ : ∀ o ∈ n₀.occurrences s, T.Lays o.2) :
    ∀ o ∈ n.occurrences s, T.Lays o.2 := by
  match h with
  | .done _ => exact h₀
  | .more (o := o) _ _ h₁ hc =>
    obtain ⟨l, m, hl, hlm, hm, hleft⟩ := hspan
    have hstart : n₀.span.start = (T.get l).location := congrArg Span.start hleft
    have hfirst : T.InTurn l (i + 1) [n₀.span] :=
      .single ⟨l, m, Nat.le_refl _, hlm, Nat.lt_succ_of_lt hm, hleft⟩
    have hlast := lays_last (n := .binary o n₀ _ _) hfirst h₁.placed.spans h₁.le_size
      (congrArg (Span.mk · _) hstart) rfl
    refine hc.lays (hlast.2.mono hl (Nat.le_refl _)) fun o ho => ?_
    rcases List.mem_append.1 ho with ho | ho
    · rcases List.mem_cons.1 ho with rfl | ho
      · exact hlast.1
      · exact h₀ o ho
    · exact h₁.lays o ho

/-- The members follow one another in front of the closing parenthesis. -/
theorem ArgumentsAt.lays {a s i es ns l j} (h : ArgumentsAt T a s i es ns l j) :
    (∃ m, j = m + 1 ∧ l = (T.get m).location ∧ T.InTurn i m (ns.map Node.span)) ∧
      ∀ o ∈ occurrencesOf s ns, T.Lays o.2 := by
  match h with
  | .done _ => exact ⟨⟨i, rfl, rfl, .nil (Nat.le_refl _)⟩, List.forall_mem_nil _⟩
  | .more he hs hes =>
    obtain ⟨⟨m, hj, hl, hm⟩, hmembers⟩ := hes.lays
    refine ⟨⟨m, hj, hl, .cons he.placed.spans (hm.before hs.le)⟩, fun o ho => ?_⟩
    rcases List.mem_append.1 ho with ho | ho
    · exact he.lays o ho
    · exact hmembers o ho

end

end ScriptSyntax
