import ScriptSyntax.Proofs.Program.Moved

/-!
Programs without their places: spans and the locations of declarations are forgotten. What a scope
binds, and what a name is resolved to, does not depend on them.
-/

namespace ScriptSyntax

mutual

def Node.unplaced : Node → Node
  | .int value _ => .int value .unknown
  | .double value _ => .double value .unknown
  | .string value _ => .string value .unknown
  | .load x _ => .load x .unknown
  | .declare x value _ => .declare x value.unplaced .unknown
  | .assign x operator value _ => .assign x operator value.unplaced .unknown
  | .unary operator operand _ => .unary operator operand.unplaced .unknown
  | .binary operator left right _ => .binary operator left.unplaced right.unplaced .unknown
  | .call name function arguments _ => .call name function (unplacedOf arguments) .unknown
  | .print arguments _ => .print (unplacedOf arguments) .unknown
  | .nativeCall signature target _ => .nativeCall signature target .unknown
  | .block body => .block body.unplaced
  | .branch condition thenBody none _ =>
    .branch condition.unplaced thenBody.unplaced none .unknown
  | .branch condition thenBody (some elseBody) _ =>
    .branch condition.unplaced thenBody.unplaced (some elseBody.unplaced) .unknown
  | .whileLoop condition body _ => .whileLoop condition.unplaced body.unplaced .unknown
  | .forLoop x range body _ => .forLoop x range.unplaced body.unplaced .unknown
  | .giveBack none _ => .giveBack none .unknown
  | .giveBack (some value) _ => .giveBack (some value.unplaced) .unknown

def Block.unplaced : Block → Block
  | ⟨scope, body, _⟩ => ⟨scope, unplacedOf body, .unknown⟩

def unplacedOf : List Node → List Node
  | [] => []
  | n :: ns => n.unplaced :: unplacedOf ns

end

def Variable.unplaced (x : Variable) : Variable := { x with location := .unknown }

def Function.unplaced (f : Function) : Function :=
  { f with body := f.body.unplaced, span := .unknown }

def Arena.unplaced (a : Arena) : Arena :=
  { a with
    declaredVariables := a.declaredVariables.map Variable.unplaced
    declaredFunctions := a.declaredFunctions.map Function.unplaced }

def Program.unplaced (p : Program) : Program := { p with arena := p.arena.unplaced }

theorem unplacedOf_toList {o o' : Option Node} (h : o'.map Node.unplaced = o.map Node.unplaced) :
    unplacedOf o'.toList = unplacedOf o.toList := by
  cases o <;> cases o' <;> simp_all [unplacedOf]

theorem unplacedOf_append (ns ms : List Node) :
    unplacedOf (ns ++ ms) = unplacedOf ns ++ unplacedOf ms := by
  induction ns with
  | nil => rfl
  | cons n ns ih => simp only [List.cons_append, unplacedOf, ih]

section Moved

/-! To forget places is to move everything to the unknown one. -/

mutual

theorem Node.unplaced_eq (n : Node) : n.unplaced = n.moved fun _ => .unknown := by
  match n with
  | .int .. | .double .. | .string .. | .load .. | .nativeCall .. | .giveBack none _ =>
    simp only [Node.unplaced, Node.moved]
    rfl
  | .declare _ v _ | .assign _ _ v _ | .unary _ v _ | .giveBack (some v) _ =>
    simp only [Node.unplaced, Node.moved, v.unplaced_eq]
    rfl
  | .binary _ l r _ =>
    simp only [Node.unplaced, Node.moved, l.unplaced_eq, r.unplaced_eq]
    rfl
  | .call _ _ ns _ | .print ns _ =>
    simp only [Node.unplaced, Node.moved, unplacedOf_eq ns]
    rfl
  | .block b => simp only [Node.unplaced, Node.moved, b.unplaced_eq]
  | .branch c b none _ =>
    simp only [Node.unplaced, Node.moved, c.unplaced_eq, b.unplaced_eq]
    rfl
  | .branch c b (some b') _ =>
    simp only [Node.unplaced, Node.moved, c.unplaced_eq, b.unplaced_eq, b'.unplaced_eq]
    rfl
  | .whileLoop c b _ | .forLoop _ c b _ =>
    simp only [Node.unplaced, Node.moved, c.unplaced_eq, b.unplaced_eq]
    rfl

theorem Block.unplaced_eq (b : Block) : b.unplaced = b.moved fun _ => .unknown := by
  match b with
  | ⟨_, ns, _⟩ =>
    simp only [Block.unplaced, Block.moved, unplacedOf_eq ns]
    rfl

theorem unplacedOf_eq (ns : List Node) : unplacedOf ns = movedOf (fun _ => .unknown) ns := by
  match ns with
  | [] => rfl
  | n :: ns => simp only [unplacedOf, movedOf, n.unplaced_eq, unplacedOf_eq ns]

end

theorem Function.unplaced_eq (f : Function) : f.unplaced = f.moved fun _ => .unknown := by
  rw [Function.unplaced, f.body.unplaced_eq]
  rfl

theorem Arena.unplaced_eq (a : Arena) : a.unplaced = a.moved fun _ => .unknown := by
  have hv : Variable.unplaced = Variable.moved fun _ => .unknown := rfl
  have hf : Function.unplaced = Function.moved fun _ => .unknown := funext Function.unplaced_eq
  rw [Arena.unplaced, hv, hf]
  rfl

/-- What has been moved looks the same once its places are forgotten. -/
theorem Program.unplaced_moved (φ : Location → Location) (p : Program) :
    (p.moved φ).unplaced = p.unplaced := by
  rw [Program.unplaced, Program.unplaced, Program.moved, Arena.unplaced_eq, Arena.unplaced_eq,
    Arena.moved_moved]
  rfl

end Moved

namespace Arena

variable {a b a' : Arena} {s : ScopeId}

theorem unplaced_pushScope (a : Arena) (owner : Option ScopeId) :
    a.unplaced.pushScope owner = ((a.pushScope owner).1, (a.pushScope owner).2.unplaced) := by
  rw [unplaced_eq, unplaced_eq, moved_pushScope]

theorem unplaced_addFunction (a : Arena) (f : Function) :
    a.unplaced.addFunction f.unplaced = ((a.addFunction f).1, (a.addFunction f).2.unplaced) := by
  rw [unplaced_eq, unplaced_eq, f.unplaced_eq, moved_addFunction]

theorem unplaced_defineVariable (a : Arena) (s : ScopeId) (x : Variable) (replace : Bool) :
    a.unplaced.defineVariable s x.unplaced replace =
      (a.defineVariable s x replace).map fun r => (r.1, r.2.unplaced) := by
  simp only [unplaced_eq]
  exact moved_defineVariable a s x replace

theorem unplaced_defineFunction (a : Arena) (s : ScopeId) (f : Function) (replace : Bool) :
    a.unplaced.defineFunction s f.unplaced replace =
      (a.defineFunction s f replace).map fun r => (r.1, r.2.unplaced) := by
  simp only [unplaced_eq, f.unplaced_eq]
  exact moved_defineFunction a s f replace

theorem unplaced_setBody (a : Arena) (f : FunctionId) (body : Block) (span : Span) :
    a.unplaced.setBody f body.unplaced .unknown = (a.setBody f body span).unplaced := by
  rw [unplaced_eq, unplaced_eq, body.unplaced_eq]
  exact moved_setBody a f body span

theorem lookupVariable?_unplaced (a : Arena) (s : ScopeId) (name : String) :
    a.unplaced.lookupVariable? s name = a.lookupVariable? s name := by
  rw [unplaced_eq, lookupVariable?_moved]

theorem lookupFunction?_unplaced (a : Arena) (s : ScopeId) (name : String) :
    a.unplaced.lookupFunction? s name = a.lookupFunction? s name := by
  rw [unplaced_eq, lookupFunction?_moved]

section Alike

variable (h : a'.unplaced = a.unplaced)
include h

/-! Arenas that differ in places only change in the same way. -/

theorem lookupVariable?_alike (s : ScopeId) (name : String) :
    a'.lookupVariable? s name = a.lookupVariable? s name := by
  rw [← lookupVariable?_unplaced, h, lookupVariable?_unplaced]

theorem lookupFunction?_alike (s : ScopeId) (name : String) :
    a'.lookupFunction? s name = a.lookupFunction? s name := by
  rw [← lookupFunction?_unplaced, h, lookupFunction?_unplaced]

theorem pushScope_alike {owner q} (hp : a.pushScope owner = (q, b)) :
    ∃ b', a'.pushScope owner = (q, b') ∧ b'.unplaced = b.unplaced := by
  have ha := unplaced_pushScope a' owner
  rw [h, unplaced_pushScope, hp] at ha
  obtain ⟨hq, hb⟩ := Prod.mk.inj ha
  exact ⟨(a'.pushScope owner).2, Prod.ext hq.symm rfl, hb.symm⟩

theorem defineVariable_alike {x y : Variable} {replace id}
    (hd : a.defineVariable s x replace = .ok (id, b)) (hx : y.unplaced = x.unplaced) :
    ∃ b', a'.defineVariable s y replace = .ok (id, b') ∧ b'.unplaced = b.unplaced := by
  have ha := unplaced_defineVariable a' s y replace
  rw [h, hx, unplaced_defineVariable, hd] at ha
  cases hr : a'.defineVariable s y replace with
  | error e => rw [hr] at ha; exact nomatch ha
  | ok r =>
    rw [hr] at ha
    obtain ⟨hid, hb⟩ := Prod.mk.inj (Except.ok.inj ha)
    exact ⟨r.2, by rw [show id = r.1 from hid], hb.symm⟩

theorem defineFunction_alike {f g : Function} {replace id}
    (hd : a.defineFunction s f replace = .ok (id, b)) (hf : g.unplaced = f.unplaced) :
    ∃ b', a'.defineFunction s g replace = .ok (id, b') ∧ b'.unplaced = b.unplaced := by
  have ha := unplaced_defineFunction a' s g replace
  rw [h, hf, unplaced_defineFunction, hd] at ha
  cases hr : a'.defineFunction s g replace with
  | error e => rw [hr] at ha; exact nomatch ha
  | ok r =>
    rw [hr] at ha
    obtain ⟨hid, hb⟩ := Prod.mk.inj (Except.ok.inj ha)
    exact ⟨r.2, by rw [show id = r.1 from hid], hb.symm⟩

theorem setBody_alike {block block' : Block} (f : FunctionId) (span span' : Span)
    (hb : block'.unplaced = block.unplaced) :
    (a'.setBody f block' span').unplaced = (a.setBody f block span).unplaced := by
  rw [← unplaced_setBody, h, hb, unplaced_setBody]

end Alike

end Arena

end ScriptSyntax
