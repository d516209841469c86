/-!
Places in a source text. Lines and byte offsets count from zero, and either may be unknown; an
unknown coordinate lies behind every known one, and places are ordered line first.
-/

namespace ScriptSyntax

inductive Coordinate where
  | known (n : Nat)
  | unknown
  deriving DecidableEq, Inhabited

namespace Coordinate

/-- The number that stands for a coordinate; an unknown one is written as the largest word. -/
def toNat : Coordinate → Nat
  | known n => n
  | unknown => Nat.pow 2 64 - 1

protected def lt : Coordinate → Coordinate → Prop
  | known m, known n => m < n
  | known _, unknown => True
  | unknown, _ => False

instance : LT Coordinate := ⟨Coordinate.lt⟩

instance decidableLT : (a b : Coordinate) → Decidable (a < b)
  | known m, known n => inferInstanceAs (Decidable (m < n))
  | known _, unknown => isTrue trivial
  | unknown, known _ => isFalse id
  | unknown, unknown => isFalse id

@[simp] theorem known_lt_known {m n : Nat} : known m < known n ↔ m < n := Iff.rfl

@[simp] theorem known_lt_unknown {n : Nat} : known n < unknown := trivial

@[simp] theorem not_unknown_lt {a : Coordinate} : ¬ unknown < a := by
  cases a <;> exact id

end Coordinate

structure Location where
  line : Coordinate
  offset : Coordinate
  deriving DecidableEq

namespace Location

def unknown : Location := ⟨.unknown, .unknown⟩

instance : Inhabited Location := ⟨unknown⟩

/-- The place at a known line and byte offset. -/
def known (line offset : Nat) : Location := ⟨.known line, .known offset⟩

/-- A place is known only if both of its coordinates are. -/
def coordinates? : Location → Option (Nat × Nat)
  | ⟨.known line, .known offset⟩ => some (line, offset)
  | _ => none

def isUnknown (l : Location) : Bool := l.coordinates?.isNone

def text (l : Location) : String :=
  match l.coordinates? with
  | some (line, offset) => toString line ++ ":" ++ toString offset
  | none => "?:?"

protected def lt (a b : Location) : Prop :=
  a.line < b.line ∨ a.line = b.line ∧ a.offset < b.offset

instance : LT Location := ⟨Location.lt⟩

instance : LE Location := ⟨fun a b => a < b ∨ a = b⟩

instance (a b : Location) : Decidable (a < b) :=
  inferInstanceAs (Decidable (_ ∨ _ ∧ _))

instance (a b : Location) : Decidable (a ≤ b) :=
  inferInstanceAs (Decidable (_ ∨ _))

def compare (a b : Location) : Ordering :=
  if a < b then .lt else if a = b then .eq else .gt

/-- The later of two places. -/
def later (a b : Location) : Location := if a < b then b else a

end Location

/-- A stretch of source text, from its first token to its last. -/
structure Span where
  start : Location
  finish : Location
  deriving DecidableEq

namespace Span

def unknown : Span := ⟨.unknown, .unknown⟩

instance : Inhabited Span := ⟨unknown⟩

/-- The span of a single token. -/
def single (l : Location) : Span := ⟨l, l⟩

end Span

end ScriptSyntax
