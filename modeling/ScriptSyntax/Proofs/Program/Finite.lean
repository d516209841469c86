import ScriptSyntax.Program.Layout
import ScriptSyntax.Proofs.Grammar.Conveyed
import ScriptSyntax.Proofs.Program.Occurrence

/-!
Programs whose double literals are finite, and that nothing else is printed of them.
-/

namespace ScriptSyntax

open Piece

/-- Trees other than an infinite double. -/
def Node.isFinite : Node → Bool
  | .double value _ => value.isFinite
  | _ => true

/-- Whether every double literal is finite. -/
def Program.isFinite (p : Program) : Bool := p.occurrences.all fun o => o.2.isFinite

/-- Pieces among which no double is infinite. -/
def Finite (ps : List Piece) : Prop := ∀ p ∈ ps, p.isFinite

section Finite

variable {p : Piece} {ps qs : List Piece}

@[simp] theorem finite_nil : Finite [] := by simp [Finite]

@[simp] theorem finite_cons : Finite (p :: ps) ↔ p.isFinite ∧ Finite ps := List.forall_mem_cons

@[simp] theorem finite_append : Finite (ps ++ qs) ↔ Finite ps ∧ Finite qs :=
  List.forall_mem_append

theorem finite_commaSeparated {items : List (List Piece)} (h : ∀ item ∈ items, Finite item) :
    Finite (commaSeparated items) := by
  induction items with
  | nil => exact finite_nil
  | cons item items ih =>
    have hitem := h item List.mem_cons_self
    cases items with
    | nil => exact hitem
    | cons next items =>
      have hitems := ih fun i hi => h i (.tail _ hi)
      rw [commaSeparated]
      · exact finite_append.2 ⟨hitem, finite_cons.2 ⟨rfl, finite_cons.2 ⟨rfl, hitems⟩⟩⟩
      · exact List.cons_ne_nil next items

theorem finite_flatMap {l : Layout} (hl : ∀ depth f, Finite (l.function depth f)) (depth : Nat)
    (fs : List FunctionId) : Finite (fs.flatMap (l.function depth)) := by
  intro q hq
  obtain ⟨f, _, hq⟩ := List.mem_flatMap.1 hq
  exact hl depth f q hq

theorem Signature.finite (s : Signature) : Finite s.pieces := by
  have hparameters : Finite (commaSeparated (s.parameters.map Parameter.pieces)) := by
    refine finite_commaSeparated fun item hi => ?_
    obtain ⟨q, _, rfl⟩ := List.mem_map.1 hi
    simp [Parameter.pieces, Piece.isFinite]
  simp [Signature.pieces, hparameters, Piece.isFinite]

end Finite

/-- Occurrences none of which is an infinite double. -/
def FiniteIn (os : List (ScopeId × Node)) : Prop := ∀ o ∈ os, o.2.isFinite

theorem FiniteIn.tail {o os} (h : FiniteIn (o :: os)) : FiniteIn os := fun x hx => h x (.tail _ hx)

theorem FiniteIn.append {os os'} (h : FiniteIn (os ++ os')) : FiniteIn os ∧ FiniteIn os' :=
  List.forall_mem_append.1 h

-- The occurrences of a tree are those of its parts behind itself, so that the hypothesis goes down
-- along the tree as the pieces do.
mutual

theorem Layout.finite_node {l : Layout} (hl : ∀ depth f, Finite (l.function depth f)) {s : ScopeId}
    (n : Node) (h : FiniteIn (n.occurrences s)) (depth : Nat) : Finite (l.node depth n) := by
  match n with
  | .int _ _ | .string _ _ | .load _ _ | .nativeCall _ _ _ | .giveBack none _ =>
    simp [Layout.node, Layout.variableName, Piece.isFinite]
  | .double value _ =>
    have hv : value.isFinite := h (s, .double value _) List.mem_cons_self
    simp [Layout.node, Piece.isFinite, hv]
  | .declare _ value _ | .assign _ _ value _ | .unary _ value _ | .giveBack (some value) _ =>
    have hv := Layout.finite_node hl value h.tail depth
    simp [Layout.node, Layout.variableName, Piece.isFinite, hv]
  | .binary _ left right _ =>
    obtain ⟨hleft, hright⟩ := FiniteIn.append h
    have hleft := Layout.finite_node hl left hleft.tail depth
    have hright := Layout.finite_node hl right hright depth
    simp [Layout.node, Piece.isFinite, hleft, hright]
  | .call _ _ arguments _ | .print arguments _ =>
    have ha := finite_commaSeparated (Layout.finite_nodes hl arguments h.tail depth)
    simp [Layout.node, Piece.isFinite, ha]
  | .block body =>
    rw [Layout.node]
    exact Layout.finite_block hl body h.tail depth
  | .branch condition thenBody none _ =>
    obtain ⟨hc, hb⟩ := FiniteIn.append h
    have hc := Layout.finite_node hl condition hc.tail depth
    have hb := Layout.finite_block hl thenBody hb depth
    simp [Layout.node, Piece.isFinite, hc, hb]
  | .branch condition thenBody (some elseBody) _ =>
    obtain ⟨h, he⟩ := FiniteIn.append h
    obtain ⟨hc, hb⟩ := h.append
    have hc := Layout.finite_node hl condition hc.tail depth
    have hb := Layout.finite_block hl thenBody hb depth
    have he := Layout.finite_block hl elseBody he depth
    simp [Layout.node, Piece.isFinite, hc, hb, he]
  | .whileLoop condition body _ | .forLoop _ condition body _ =>
    obtain ⟨hc, hb⟩ := FiniteIn.append h
    have hc := Layout.finite_node hl condition hc.tail depth
    have hb := Layout.finite_block hl body hb depth
    simp [Layout.node, Layout.variableName, Piece.isFinite, hc, hb]

theorem Layout.finite_block {l : Layout} (hl : ∀ depth f, Finite (l.function depth f))
    (b : Block) (h : FiniteIn b.occurrences) (depth : Nat) : Finite (l.block depth b) := by
  match b with
  | ⟨scope, body, _⟩ =>
    have hb := Layout.finite_statements hl body h (depth + 1)
      (l.arena.scopeAt scope).functionBindings.ids
    simp [Layout.block, Piece.isFinite, hb]

theorem Layout.finite_nodes {l : Layout} (hl : ∀ depth f, Finite (l.function depth f))
    {s : ScopeId} (ns : List Node) (h : FiniteIn (occurrencesOf s ns)) (depth : Nat) :
    ∀ item ∈ l.nodes depth ns, Finite item := by
  match ns with
  | [] => exact nofun
  | n :: ns =>
    rintro item (_ | ⟨_, hi⟩)
    · exact Layout.finite_node hl n (FiniteIn.append h).1 depth
    · exact Layout.finite_nodes hl ns (FiniteIn.append h).2 depth item hi

theorem Layout.finite_statements {l : Layout} (hl : ∀ depth f, Finite (l.function depth f))
    {s : ScopeId} (ns : List Node) (h : FiniteIn (occurrencesOf s ns)) (depth : Nat)
    (fs : List FunctionId) : Finite (l.statements depth fs ns) := by
  match ns with
  | [] => exact finite_flatMap hl depth fs
  | n :: ns =>
    have hn := Layout.finite_node hl n (FiniteIn.append h).1 depth
    have hns (fs : List FunctionId) :=
      Layout.finite_statements hl ns (FiniteIn.append h).2 depth fs
    have hend : Finite (if n.isCompound then [newline] else [symbol .semicolon, newline]) := by
      split <;> simp [Piece.isFinite]
    simp [Layout.statements, finite_flatMap hl, Piece.isFinite, hn, hns, hend]

end

/-- A function is printed without an infinite double if no body holds one. -/
theorem Arena.finite_functionPieces {a : Arena}
    (h : ∀ f, FiniteIn (a.functionAt f).body.occurrences) (nesting depth : Nat) (f : FunctionId) :
    Finite (a.functionPieces nesting depth f) := by
  induction nesting generalizing depth f with
  | zero => exact nofun
  | succ nesting ih =>
    have hb := Layout.finite_block (l := ⟨a, a.functionPieces nesting⟩) ih _ (h f) depth
    rw [Arena.functionPieces]
    split
    · simp [Signature.finite, Piece.isFinite]
    · simp [Signature.finite, Piece.isFinite, hb]

theorem Program.finite_pieces {p : Program} (h : p.isFinite) : Finite p.pieces := by
  have hbody : ∀ f, FiniteIn (p.arena.functionAt f).body.occurrences := by
    intro f
    by_cases hf : f.index < p.arena.declaredFunctions.size
    · refine fun o ho => List.all_eq_true.1 h o (List.mem_flatMap.2 ⟨_, ?_, ho⟩)
      simp [Arena.functionAt, hf]
    · have hdefault : p.arena.functionAt f = default := by simp [Arena.functionAt, hf]
      rw [hdefault]
      exact nofun
  have htop : FiniteIn p.topLevel.body.occurrences := hbody p.top
  simp only [Program.pieces]
  generalize p.topLevel.body = body at htop ⊢
  obtain ⟨scope, ns, span⟩ := body
  exact Layout.finite_statements (Arena.finite_functionPieces hbody _) ns htop 0 _

end ScriptSyntax
