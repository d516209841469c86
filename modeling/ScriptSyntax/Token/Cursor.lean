import ScriptSyntax.Position
import ScriptSyntax.Text.Bytes

/-!
A reading position in a text: the bytes still to be read and the place they start at. A newline
starts the next line, and reading on behind the end yields zero bytes.
-/

namespace ScriptSyntax

structure Cursor where
  rest : List UInt8
  line : Nat
  offset : Nat
  deriving DecidableEq

namespace Cursor

def start (source : String) : Cursor := ⟨Text.bytes source, 0, 0⟩

def location (c : Cursor) : Location := .known c.line c.offset

def atEnd (c : Cursor) : Bool := c.rest.isEmpty

/-- The byte `n` places ahead, zero behind the end. -/
def peek (c : Cursor) (n : Nat) : UInt8 := c.rest.getD n 0

/-- The place behind one more byte. -/
def step (c : Cursor) : Cursor :=
  if c.peek 0 = '\n'.toUInt8 then ⟨c.rest.tail, c.line + 1, 0⟩
  else ⟨c.rest.tail, c.line, c.offset + 1⟩

def skip : Nat → Cursor → Cursor
  | 0, c => c
  | n + 1, c => skip n c.step

/-- The text still to be read; empty inside a character. -/
def remainder (c : Cursor) : String := Text.ofBytes c.rest

theorem atEnd_iff {c : Cursor} : c.atEnd ↔ c.rest = [] := List.isEmpty_iff

theorem rest_step (c : Cursor) : c.step.rest = c.rest.tail := by
  unfold step; split <;> rfl

theorem rest_skip (n : Nat) (c : Cursor) : (c.skip n).rest = c.rest.drop n := by
  induction n generalizing c with
  | zero => rfl
  | succ n ih => rw [skip, ih, rest_step, List.drop_tail]

end Cursor

end ScriptSyntax
