/-!
Handles by which trees and scopes name scopes, variables and functions: their numbers in the order
of creation.
-/

namespace ScriptSyntax

@[ext]
structure ScopeId where
  index : Nat
  deriving DecidableEq, Inhabited

@[ext]
structure VariableId where
  index : Nat
  deriving DecidableEq, Inhabited

@[ext]
structure FunctionId where
  index : Nat
  deriving DecidableEq, Inhabited

instance : LT ScopeId := ⟨fun a b => a.index < b.index⟩

instance : LT VariableId := ⟨fun a b => a.index < b.index⟩

instance : LT FunctionId := ⟨fun a b => a.index < b.index⟩

end ScriptSyntax
