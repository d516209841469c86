import ScriptSyntax.Tree.Equality

/-!
Scopes and the declarations they own, kept in one arena and named by handles. A scope binds each
name at most once per kind of declaration; a name is looked up from a scope outwards.
-/

namespace ScriptSyntax

structure Variable where
  type : ValueType
  name : String
  owner : ScopeId
  location : Location
  deriving DecidableEq, Inhabited

/-- A declared function. Its parameters have a scope of their own, which encloses the body's. -/
structure Function where
  signature : Signature
  owner : ScopeId
  parameterScope : ScopeId
  body : Block
  span : Span
  deriving DecidableEq, Inhabited

/-- The names bound in one scope, in the order of the handles. -/
structure Bindings (Id : Type) where
  entries : List (String × Id) := []
  deriving DecidableEq, Inhabited

namespace Bindings

variable {Id : Type}

def get? (b : Bindings Id) (name : String) : Option Id := b.entries.lookup name

/-- Binds a name to a newer handle; an older binding of the name is given up. -/
def bind (b : Bindings Id) (name : String) (id : Id) : Bindings Id :=
  ⟨b.entries.filter (·.1 ≠ name) ++ [(name, id)]⟩

/-- The handles that are bound, in ascending order. They need not be sorted: a handle is the newest
one when it is bound, and goes behind all others (`Arena.Consistent.variables_ascending` and
`functions_ascending`, for every arena that changes lead to). -/
def ids (b : Bindings Id) : List Id := b.entries.map (·.2)

end Bindings

structure Scope where
  owner : Option ScopeId := none
  children : Array ScopeId := #[]
  variableBindings : Bindings VariableId := {}
  functionBindings : Bindings FunctionId := {}
  deriving DecidableEq, Inhabited

structure Arena where
  scopes : Array Scope := #[]
  declaredVariables : Array Variable := #[]
  declaredFunctions : Array Function := #[]
  deriving DecidableEq, Inhabited

namespace Arena

def scopeCount (a : Arena) : Nat := a.scopes.size

def scopeAt (a : Arena) (s : ScopeId) : Scope := a.scopes[s.index]?.getD default

def variableAt (a : Arena) (x : VariableId) : Variable := a.declaredVariables[x.index]?.getD default

def functionAt (a : Arena) (f : FunctionId) : Function := a.declaredFunctions[f.index]?.getD default

def modifyScope (a : Arena) (s : ScopeId) (change : Scope → Scope) : Arena :=
  { a with scopes := a.scopes.modify s.index change }

/-- A new scope inside `owner`. -/
def pushScope (a : Arena) (owner : Option ScopeId) : ScopeId × Arena :=
  let id : ScopeId := ⟨a.scopeCount⟩
  let pushed := { a with scopes := a.scopes.push { owner } }
  match owner with
  | some o => (id, pushed.modifyScope o fun s => { s with children := s.children.push id })
  | none => (id, pushed)

/-- Declares a variable in a scope. If the scope binds its name already, and may not give up that
binding, the older variable is returned instead. -/
def defineVariable (a : Arena) (s : ScopeId) (x : Variable) (replace : Bool) :
    Except VariableId (VariableId × Arena) :=
  match (a.scopeAt s).variableBindings.get? x.name, replace with
  | some existing, false => .error existing
  | _, _ =>
    let id : VariableId := ⟨a.declaredVariables.size⟩
    let bound := a.modifyScope s fun r =>
      { r with variableBindings := r.variableBindings.bind x.name id }
    .ok (id, { bound with declaredVariables := a.declaredVariables.push x })

/-- Adds a function that no scope binds. -/
def addFunction (a : Arena) (f : Function) : FunctionId × Arena :=
  (⟨a.declaredFunctions.size⟩, { a with declaredFunctions := a.declaredFunctions.push f })

/-- Declares a function in a scope, as `defineVariable` does a variable. -/
def defineFunction (a : Arena) (s : ScopeId) (f : Function) (replace : Bool) :
    Except FunctionId (FunctionId × Arena) :=
  match (a.scopeAt s).functionBindings.get? f.signature.name, replace with
  | some existing, false => .error existing
  | _, _ =>
    let id : FunctionId := ⟨a.declaredFunctions.size⟩
    let bound := a.modifyScope s fun r =>
      { r with functionBindings := r.functionBindings.bind f.signature.name id }
    .ok (bound.addFunction f)

/-- Gives a declared function its body. -/
def setBody (a : Arena) (f : FunctionId) (body : Block) (span : Span) : Arena :=
  { a with
    declaredFunctions := a.declaredFunctions.modify f.index fun r => { r with body, span } }

/-- A scope and those around it, innermost first. An owner is always older than what it owns. -/
def chain (a : Arena) (s : ScopeId) : List ScopeId :=
  match (a.scopeAt s).owner with
  | some o => if _ : o.index < s.index then s :: a.chain o else [s]
  | none => [s]
termination_by s.index

def lookupVariable? (a : Arena) (s : ScopeId) (name : String) : Option VariableId :=
  (a.chain s).findSome? fun t => (a.scopeAt t).variableBindings.get? name

def lookupFunction? (a : Arena) (s : ScopeId) (name : String) : Option FunctionId :=
  (a.chain s).findSome? fun t => (a.scopeAt t).functionBindings.get? name

/-- The scope that encloses everything. -/
def root : ScopeId := ⟨0⟩

/-- An arena with the root scope and no declaration. -/
def fresh : Arena := (Arena.pushScope {} none).2

end Arena

end ScriptSyntax
