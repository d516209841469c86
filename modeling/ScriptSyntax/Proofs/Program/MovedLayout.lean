import ScriptSyntax.Program.Layout
import ScriptSyntax.Proofs.Program.Moved

/-!
The printed text depends on places by their order only: a function is printed in front of the first
statement that begins behind it, wherever the two stand.
-/

namespace ScriptSyntax

variable {φ : Location → Location}

theorem Node.isCompound_moved (n : Node) : (n.moved φ).isCompound = n.isCompound := by
  match n with
  | .block ⟨_, _, _⟩ | .branch _ _ none _ | .branch _ _ (some _) _ | .giveBack none _
  | .giveBack (some _) _ => simp only [moved, isCompound]
  | .int .. | .double .. | .string .. | .load .. | .declare .. | .assign .. | .unary .. | .binary ..
  | .call .. | .print .. | .nativeCall .. | .whileLoop .. | .forLoop .. =>
    simp only [moved, isCompound]

theorem Arena.variableAt_moved (hφ : φ .unknown = .unknown) (a : Arena) (x : VariableId) :
    (a.moved φ).variableAt x = (a.variableAt x).moved φ := by
  simp only [variableAt, moved, Array.getElem?_map]
  cases a.declaredVariables[x.index]? with
  | some y => rfl
  | none =>
    change default = (⟨_, _, _, φ .unknown⟩ : Variable)
    rw [hφ]
    rfl

/-- Prints with the arena moved. -/
def Layout.moved (φ : Location → Location) (l : Layout) : Layout := ⟨l.arena.moved φ, l.function⟩

namespace Layout

/-- A function that calls out is one wherever it stands. -/
theorem native_moved {α : Type} (native : String → α) (other : α) (ns : List Node) :
    (match movedOf φ ns with
      | [.nativeCall _ target _] => native target
      | _ => other) =
    match ns with
      | [.nativeCall _ target _] => native target
      | _ => other := by
  match ns with
  | [] => simp only [movedOf]
  | n :: m :: ns =>
    simp only [movedOf]
    generalize n.moved φ = n'
    cases n <;> cases n' <;> rfl
  | [.block ⟨_, _, _⟩] | [.branch _ _ none _] | [.branch _ _ (some _) _] | [.giveBack none _]
  | [.giveBack (some _) _] => simp only [movedOf, Node.moved]
  | [.int ..] | [.double ..] | [.string ..] | [.load ..] | [.declare ..] | [.assign ..]
  | [.unary ..] | [.binary ..] | [.call ..] | [.print ..] | [.nativeCall ..] | [.whileLoop ..]
  | [.forLoop ..] => simp only [movedOf, Node.moved]

theorem earlier_moved (hφ : φ .unknown = .unknown) (horder : ∀ a b, φ a < φ b ↔ a < b)
    (l : Layout) (n : Node) :
    (fun f => decide (((l.moved φ).arena.functionAt f).span.start < (n.moved φ).span.start)) =
      fun f => decide ((l.arena.functionAt f).span.start < n.span.start) := by
  funext f
  rw [Layout.moved, Arena.functionAt_moved hφ, Node.span_moved, decide_eq_decide]
  exact horder _ _

-- Places decide one thing alone, which functions are printed in front of a statement, and moving
-- them keeps their order.
mutual

theorem node_moved (hφ : φ .unknown = .unknown) (horder : ∀ a b, φ a < φ b ↔ a < b)
    (l : Layout) (depth : Nat) (n : Node) :
    (l.moved φ).node depth (n.moved φ) = l.node depth n := by
  have hname : ∀ x, (l.moved φ).variableName x = l.variableName x := by
    intro x
    rw [variableName, Layout.moved, Arena.variableAt_moved hφ]
    rfl
  have htype : ∀ x, ((l.moved φ).arena.variableAt x).type = (l.arena.variableAt x).type := by
    intro x
    rw [Layout.moved, Arena.variableAt_moved hφ]
    rfl
  match n with
  | .int .. | .double .. | .string .. | .nativeCall .. | .giveBack none _ =>
    simp only [Node.moved, node]
  | .load .. => simp only [Node.moved, node, hname]
  | .declare _ v _ =>
    simp only [Node.moved, node, hname, htype, node_moved hφ horder l depth v]
  | .assign _ _ v _ | .unary _ v _ | .giveBack (some v) _ =>
    simp only [Node.moved, node, hname, node_moved hφ horder l depth v]
  | .binary _ m m' _ =>
    simp only [Node.moved, node, node_moved hφ horder l depth m, node_moved hφ horder l depth m']
  | .call _ _ ns _ | .print ns _ =>
    simp only [Node.moved, node, nodes_moved hφ horder l depth ns]
  | .block b => simp only [Node.moved, node, block_moved hφ horder l depth b]
  | .branch c b none _ | .whileLoop c b _ =>
    simp only [Node.moved, node, node_moved hφ horder l depth c, block_moved hφ horder l depth b]
  | .branch c b (some b') _ =>
    simp only [Node.moved, node, node_moved hφ horder l depth c, block_moved hφ horder l depth b,
      block_moved hφ horder l depth b']
  | .forLoop _ c b _ =>
    simp only [Node.moved, node, hname, node_moved hφ horder l depth c,
      block_moved hφ horder l depth b]

theorem block_moved (hφ : φ .unknown = .unknown) (horder : ∀ a b, φ a < φ b ↔ a < b)
    (l : Layout) (depth : Nat) (b : Block) :
    (l.moved φ).block depth (b.moved φ) = l.block depth b := by
  match b with
  | ⟨s, ns, _⟩ =>
    simp only [Block.moved, block, statements_moved hφ horder l (depth + 1) _ ns]
    rfl

theorem nodes_moved (hφ : φ .unknown = .unknown) (horder : ∀ a b, φ a < φ b ↔ a < b)
    (l : Layout) (depth : Nat) (ns : List Node) :
    (l.moved φ).nodes depth (movedOf φ ns) = l.nodes depth ns := by
  match ns with
  | [] => simp only [movedOf, nodes]
  | n :: ns =>
    simp only [movedOf, nodes, node_moved hφ horder l depth n, nodes_moved hφ horder l depth ns]

theorem statements_moved (hφ : φ .unknown = .unknown) (horder : ∀ a b, φ a < φ b ↔ a < b)
    (l : Layout) (depth : Nat) (fs : List FunctionId) (ns : List Node) :
    (l.moved φ).statements depth fs (movedOf φ ns) = l.statements depth fs ns := by
  match ns with
  | [] =>
    simp only [movedOf, statements]
    rfl
  | n :: ns =>
    simp only [movedOf, statements, node_moved hφ horder l depth n,
      statements_moved hφ horder l depth _ ns, n.isCompound_moved, l.earlier_moved hφ horder n]
    rfl

end

end Layout

section Order

variable (hφ : φ .unknown = .unknown) (horder : ∀ a b, φ a < φ b ↔ a < b)
include hφ horder

theorem Arena.functionPieces_moved (a : Arena) (nesting depth : Nat) (f : FunctionId) :
    (a.moved φ).functionPieces nesting depth f = a.functionPieces nesting depth f := by
  induction nesting generalizing depth f with
  | zero => rfl
  | succ nesting ih =>
    have hpieces : (a.moved φ).functionPieces nesting = a.functionPieces nesting :=
      funext fun depth => funext fun f => ih depth f
    have hblock := Layout.block_moved hφ horder ⟨a, a.functionPieces nesting⟩ depth
      (a.functionAt f).body
    rw [functionPieces, functionPieces, functionAt_moved hφ, hpieces]
    rcases hf : a.functionAt f with ⟨signature, owner, scope, ⟨s, ns, span⟩, span'⟩
    rw [hf] at hblock
    dsimp only [Function.moved, Layout.moved] at hblock ⊢
    rw [hblock, Block.moved]
    exact congrArg _ (Layout.native_moved _ _ ns)

/-- A program at other places is printed as the same text, if the places are in the same order. -/
theorem Program.text_moved (p : Program) : (p.moved φ).text = p.text := by
  have hlayout : (p.arena.moved φ).layout = p.arena.layout.moved φ := by
    have hsize : (p.arena.moved φ).declaredFunctions.size = p.arena.declaredFunctions.size := by
      simp only [Arena.moved, Array.size_map]
    rw [Arena.layout, Arena.layout, hsize, Layout.moved]
    exact congrArg _ (funext fun _ => funext fun _ =>
      p.arena.functionPieces_moved hφ horder _ _ _)
  have htop : (p.moved φ).topLevel = p.topLevel.moved φ := p.arena.functionAt_moved hφ p.top
  rcases hbody : p.topLevel.body with ⟨s, ns, span⟩
  rw [text, text, pieces, pieces, htop, Function.moved, hbody, Block.moved]
  dsimp only [Program.moved]
  rw [hlayout, Layout.statements_moved hφ horder]
  rfl

end Order

end ScriptSyntax
