import ScriptSyntax.Program.Basic
import ScriptSyntax.Proofs.Scope.Lookup
import ScriptSyntax.Token.Basic

/-!
The same trees, declarations and tokens at other places. A map of places keeps the unknown one, and
nothing that is declared or looked up depends on it.
-/

namespace ScriptSyntax

variable (φ : Location → Location)

def Span.moved (s : Span) : Span := ⟨φ s.start, φ s.finish⟩

mutual

def Node.moved : Node → Node
  | .int value s => .int value (s.moved φ)
  | .double value s => .double value (s.moved φ)
  | .string value s => .string value (s.moved φ)
  | .load x s => .load x (s.moved φ)
  | .declare x value s => .declare x value.moved (s.moved φ)
  | .assign x operator value s => .assign x operator value.moved (s.moved φ)
  | .unary operator operand s => .unary operator operand.moved (s.moved φ)
  | .binary operator left right s => .binary operator left.moved right.moved (s.moved φ)
  | .call name function arguments s => .call name function (movedOf arguments) (s.moved φ)
  | .print arguments s => .print (movedOf arguments) (s.moved φ)
  | .nativeCall signature target s => .nativeCall signature target (s.moved φ)
  | .block body => .block body.moved
  | .branch condition thenBody none s =>
    .branch condition.moved thenBody.moved none (s.moved φ)
  | .branch condition thenBody (some elseBody) s =>
    .branch condition.moved thenBody.moved (some elseBody.moved) (s.moved φ)
  | .whileLoop condition body s => .whileLoop condition.moved body.moved (s.moved φ)
  | .forLoop x range body s => .forLoop x range.moved body.moved (s.moved φ)
  | .giveBack none s => .giveBack none (s.moved φ)
  | .giveBack (some value) s => .giveBack (some value.moved) (s.moved φ)

def Block.moved : Block → Block
  | ⟨scope, body, s⟩ => ⟨scope, movedOf body, s.moved φ⟩

def movedOf : List Node → List Node
  | [] => []
  | n :: ns => n.moved :: movedOf ns

end

def Variable.moved (x : Variable) : Variable := { x with location := φ x.location }

def Function.moved (f : Function) : Function :=
  { f with body := f.body.moved φ, span := f.span.moved φ }

def Arena.moved (a : Arena) : Arena :=
  { a with
    declaredVariables := a.declaredVariables.map (Variable.moved φ)
    declaredFunctions := a.declaredFunctions.map (Function.moved φ) }

def Program.moved (p : Program) : Program := { p with arena := p.arena.moved φ }

def Token.moved (t : Token) : Token := { t with location := φ t.location }

def TokenList.moved (T : TokenList) : TokenList :=
  ⟨T.tokens.map (Token.moved φ), φ T.finish⟩

def Failure.moved (e : Failure) : Failure := ⟨e.cause, φ e.location⟩

variable {φ}

theorem movedOf_append (ns ms : List Node) :
    movedOf φ (ns ++ ms) = movedOf φ ns ++ movedOf φ ms := by
  induction ns with
  | nil => rfl
  | cons n ns ih => simp only [List.cons_append, movedOf, ih]

theorem movedOf_toList (o : Option Node) : movedOf φ o.toList = (o.map (Node.moved φ)).toList := by
  cases o <;> rfl

@[simp] theorem Node.span_moved (n : Node) : (n.moved φ).span = n.span.moved φ := by
  match n with
  | .block ⟨_, _, _⟩ | .branch _ _ none _ | .branch _ _ (some _) _ | .giveBack none _
  | .giveBack (some _) _ => simp only [moved, Block.moved, span]
  | .int .. | .double .. | .string .. | .load .. | .declare .. | .assign .. | .unary .. | .binary ..
  | .call .. | .print .. | .nativeCall .. | .whileLoop .. | .forLoop .. => simp only [moved, span]

@[simp] theorem Block.span_moved (b : Block) : (b.moved φ).span = b.span.moved φ := by
  cases b
  rw [moved]

section Twice

/-! To move twice is to move once, by both maps. -/

variable {ψ : Location → Location}

mutual

theorem Node.moved_moved (n : Node) : (n.moved φ).moved ψ = n.moved (ψ ∘ φ) := by
  match n with
  | .int .. | .double .. | .string .. | .load .. | .nativeCall .. | .giveBack none _ =>
    simp only [Node.moved]
    rfl
  | .declare _ v _ | .assign _ _ v _ | .unary _ v _ | .giveBack (some v) _ =>
    simp only [Node.moved, v.moved_moved]
    rfl
  | .binary _ l r _ =>
    simp only [Node.moved, l.moved_moved, r.moved_moved]
    rfl
  | .call _ _ ns _ | .print ns _ =>
    simp only [Node.moved, movedOf_movedOf ns]
    rfl
  | .block b => simp only [Node.moved, b.moved_moved]
  | .branch c b none _ =>
    simp only [Node.moved, c.moved_moved, b.moved_moved]
    rfl
  | .branch c b (some b') _ =>
    simp only [Node.moved, c.moved_moved, b.moved_moved, b'.moved_moved]
    rfl
  | .whileLoop c b _ | .forLoop _ c b _ =>
    simp only [Node.moved, c.moved_moved, b.moved_moved]
    rfl

theorem Block.moved_moved (b : Block) : (b.moved φ).moved ψ = b.moved (ψ ∘ φ) := by
  match b with
  | ⟨_, ns, _⟩ =>
    simp only [Block.moved, movedOf_movedOf ns]
    rfl

theorem movedOf_movedOf (ns : List Node) : movedOf ψ (movedOf φ ns) = movedOf (ψ ∘ φ) ns := by
  match ns with
  | [] => rfl
  | n :: ns => simp only [movedOf, n.moved_moved, movedOf_movedOf ns]

end

theorem Arena.moved_moved (a : Arena) : (a.moved φ).moved ψ = a.moved (ψ ∘ φ) := by
  have hv : Variable.moved ψ ∘ Variable.moved φ = Variable.moved (ψ ∘ φ) := rfl
  have hf : Function.moved ψ ∘ Function.moved φ = Function.moved (ψ ∘ φ) := by
    funext f
    simp only [Function.comp, Function.moved, f.body.moved_moved]
    rfl
  simp only [Arena.moved, Array.map_map, hv, hf]

end Twice

namespace Arena

theorem moved_pushScope (a : Arena) (owner : Option ScopeId) :
    (a.moved φ).pushScope owner = ((a.pushScope owner).1, (a.pushScope owner).2.moved φ) := by
  cases owner <;> rfl

theorem moved_addFunction (a : Arena) (f : Function) :
    (a.moved φ).addFunction (f.moved φ) =
      ((a.addFunction f).1, (a.addFunction f).2.moved φ) := by
  simp [addFunction, moved]

theorem moved_defineVariable (a : Arena) (s : ScopeId) (x : Variable) (replace : Bool) :
    (a.moved φ).defineVariable s (x.moved φ) replace =
      (a.defineVariable s x replace).map fun r => (r.1, r.2.moved φ) := by
  unfold defineVariable
  simp only [show (a.moved φ).scopeAt s = a.scopeAt s from rfl,
    show (x.moved φ).name = x.name from rfl]
  split <;> simp_all [Except.map, moved, modifyScope]

theorem moved_defineFunction (a : Arena) (s : ScopeId) (f : Function) (replace : Bool) :
    (a.moved φ).defineFunction s (f.moved φ) replace =
      (a.defineFunction s f replace).map fun r => (r.1, r.2.moved φ) := by
  unfold defineFunction
  simp only [show (a.moved φ).scopeAt s = a.scopeAt s from rfl,
    show (f.moved φ).signature = f.signature from rfl]
  split <;> simp_all [Except.map, moved, modifyScope, addFunction]

theorem moved_setBody (a : Arena) (f : FunctionId) (body : Block) (span : Span) :
    (a.moved φ).setBody f (body.moved φ) (span.moved φ) = (a.setBody f body span).moved φ := by
  simp only [setBody, moved]
  congr 1
  apply Array.ext
  · simp
  · intro i h₁ h₂
    simp only [Array.getElem_modify, Array.getElem_map]
    split <;> rfl

theorem chain_moved (a : Arena) (s : ScopeId) : (a.moved φ).chain s = a.chain s :=
  chain_congr fun _ => rfl

theorem lookupVariable?_moved (a : Arena) (s : ScopeId) (name : String) :
    (a.moved φ).lookupVariable? s name = a.lookupVariable? s name := by
  rw [lookupVariable?, lookupVariable?, chain_moved]
  rfl

theorem lookupFunction?_moved (a : Arena) (s : ScopeId) (name : String) :
    (a.moved φ).lookupFunction? s name = a.lookupFunction? s name := by
  rw [lookupFunction?, lookupFunction?, chain_moved]
  rfl

theorem functionAt_moved (hφ : φ .unknown = .unknown) (a : Arena) (f : FunctionId) :
    (a.moved φ).functionAt f = (a.functionAt f).moved φ := by
  simp only [functionAt, moved, Array.getElem?_map]
  cases a.declaredFunctions[f.index]? with
  | some g => rfl
  | none =>
    have hs : Span.unknown.moved φ = .unknown := by rw [Span.moved, Span.unknown, hφ]
    have hb : (default : Block).moved φ = default := by
      change Block.moved φ ⟨_, [], .unknown⟩ = _
      rw [Block.moved, movedOf, hs]
      rfl
    change default = (⟨_, _, _, Block.moved φ default, Span.moved φ .unknown⟩ : Function)
    rw [hs, hb]
    rfl

end Arena

end ScriptSyntax
