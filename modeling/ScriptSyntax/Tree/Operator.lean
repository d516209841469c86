import ScriptSyntax.Token.Kind

/-!
The operators a tree may hold, by the place they stand in. The range symbol stands between operands
in a text but is no operator of a tree.
-/

namespace ScriptSyntax

inductive UnaryOperator where
  | not | negate
  deriving DecidableEq

namespace UnaryOperator

def symbol : UnaryOperator → Symbol
  | not => .not
  | negate => .minus

def ofKind? : TokenKind → Option UnaryOperator
  | .symbol .not => some not
  | .symbol .minus => some negate
  | _ => none

theorem ofKind?_eq_some {k : TokenKind} {o : UnaryOperator} :
    ofKind? k = some o ↔ k = o.symbol := by
  constructor
  · intro h; unfold ofKind? at h; split at h <;> cases h <;> rfl
  · rintro rfl; cases o <;> rfl

end UnaryOperator

inductive BinaryOperator where
  | logicalOr | logicalAnd | equal | notEqual | atLeast | atMost
  | bitOr | bitAnd | bitXor | greater | less
  | add | subtract | multiply | divide | modulo
  deriving DecidableEq

namespace BinaryOperator

def symbol : BinaryOperator → Symbol
  | logicalOr => .logicalOr
  | logicalAnd => .logicalAnd
  | equal => .equal
  | notEqual => .notEqual
  | atLeast => .atLeast
  | atMost => .atMost
  | bitOr => .bitOr
  | bitAnd => .bitAnd
  | bitXor => .bitXor
  | greater => .greater
  | less => .less
  | add => .plus
  | subtract => .minus
  | multiply => .times
  | divide => .divide
  | modulo => .modulo

def precedence (o : BinaryOperator) : Nat := o.symbol.precedence

def ofKind? : TokenKind → Option BinaryOperator
  | .symbol .logicalOr => some logicalOr
  | .symbol .logicalAnd => some logicalAnd
  | .symbol .equal => some equal
  | .symbol .notEqual => some notEqual
  | .symbol .atLeast => some atLeast
  | .symbol .atMost => some atMost
  | .symbol .bitOr => some bitOr
  | .symbol .bitAnd => some bitAnd
  | .symbol .bitXor => some bitXor
  | .symbol .greater => some greater
  | .symbol .less => some less
  | .symbol .plus => some add
  | .symbol .minus => some subtract
  | .symbol .times => some multiply
  | .symbol .divide => some divide
  | .symbol .modulo => some modulo
  | _ => none

theorem ofKind?_eq_some {k : TokenKind} {o : BinaryOperator} :
    ofKind? k = some o ↔ k = o.symbol := by
  constructor
  · intro h; unfold ofKind? at h; split at h <;> cases h <;> rfl
  · rintro rfl; cases o <;> rfl

end BinaryOperator

inductive AssignOperator where
  | set | increase | decrease
  deriving DecidableEq

namespace AssignOperator

def symbol : AssignOperator → Symbol
  | set => .assign
  | increase => .increase
  | decrease => .decrease

def ofKind? : TokenKind → Option AssignOperator
  | .symbol .assign => some set
  | .symbol .increase => some increase
  | .symbol .decrease => some decrease
  | _ => none

theorem ofKind?_eq_some {k : TokenKind} {o : AssignOperator} :
    ofKind? k = some o ↔ k = o.symbol := by
  constructor
  · intro h; unfold ofKind? at h; split at h <;> cases h <;> rfl
  · rintro rfl; cases o <;> rfl

end AssignOperator

end ScriptSyntax
