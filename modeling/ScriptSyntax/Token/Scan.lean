import ScriptSyntax.Token.Basic
import ScriptSyntax.Token.Cursor
import ScriptSyntax.Token.Lexeme

/-!
The tokens of a text. A text that cannot be read to its end yields the tokens in front of the
failure as well as the failure.
-/

namespace ScriptSyntax

/-- The place behind the blanks and comments in front. -/
def Cursor.skipBlank (c : Cursor) : Cursor := c.skip (blankLength false c.rest)

namespace TokenList

/-- Adds the tokens from `c` on. The place where the text ends is set only if it is reached. -/
def scanFrom (c : Cursor) (l : TokenList) : TokenList × Option Failure :=
  let c' := c.skipBlank
  if c'.atEnd then (l.setFinish c'.location, none)
  else
    match _ : Lexeme.first c'.rest with
    | .ok lexeme =>
      scanFrom (c'.skip lexeme.length) (l.push ⟨lexeme.kind, lexeme.text, c'.location⟩)
    | .error (cause, length) => (l, some ⟨cause, (c'.skip length).location⟩)
termination_by c.rest.length
decreasing_by
  have hfirst : Lexeme.first c.skipBlank.rest = .ok lexeme := by assumption
  have hpos := Lexeme.length_pos_of_first hfirst
  have hne : c.skipBlank.rest ≠ [] := by
    intro hnil
    rw [hnil] at hfirst
    contradiction
  have hlen := List.length_pos_iff.mpr hne
  simp only [Cursor.skipBlank, Cursor.rest_skip, List.length_drop] at hlen ⊢
  omega

/-- Reads a text into a list, which gives up what it holds. -/
def scanInto (source : String) (l : TokenList) : TokenList × Option Failure :=
  scanFrom (.start source) l.clear

def scan (source : String) : TokenList × Option Failure := scanInto source {}

theorem scanInto_eq_scan (source : String) (l : TokenList) : scanInto source l = scan source := rfl

theorem scan_eq_scanFrom (source : String) : scan source = scanFrom (.start source) {} := rfl

end TokenList

/-- The tokens of a text, or the first thing wrong with it. -/
def tokenize (source : String) : Except Failure TokenList :=
  match TokenList.scan source with
  | (tokens, none) => .ok tokens
  | (_, some failure) => .error failure

end ScriptSyntax
