import ScriptSyntax.Diagnostic
import ScriptSyntax.Text.Bytes
import ScriptSyntax.Token.Kind

/-!
What stands at the front of some bytes: blanks and comments, which are passed over, or the first
lexeme with its kind and text. Every lexeme takes the longest run its class allows.
-/

namespace ScriptSyntax

open Text

/-- The length of the blanks and comments in front. A comment, once begun, lasts to the newline. -/
def blankLength (inComment : Bool) : List UInt8 → Nat
  | [] => 0
  | b :: rest =>
    if inComment then blankLength (b ≠ '\n'.toUInt8) rest + 1
    else if isBlank b then blankLength false rest + 1
    else if b = '/'.toUInt8 ∧ rest.head? = some '/'.toUInt8 then blankLength true rest + 1
    else 0

structure Lexeme where
  kind : TokenKind
  text : String
  length : Nat
  deriving DecidableEq

namespace Lexeme

def digitsLength (front : List UInt8) : Nat := (front.takeWhile isDigit).length

/-- A point and the digits behind it. Two points in a row are a range, not a fraction. -/
def fractionLength : List UInt8 → Nat
  | [] => 0
  | b :: rest =>
    if b = '.'.toUInt8 ∧ rest.head? ≠ some '.'.toUInt8 then digitsLength rest + 1 else 0

def signLength : List UInt8 → Nat
  | [] => 0
  | b :: _ => if b = '+'.toUInt8 ∨ b = '-'.toUInt8 then 1 else 0

/-- An `e`, its sign and digits, each of which may be missing. -/
def exponentLength : List UInt8 → Nat
  | [] => 0
  | b :: rest =>
    if b = 'e'.toUInt8 then digitsLength (rest.drop (signLength rest)) + signLength rest + 1 else 0

/-- The lengths of the digits, the fraction and the exponent of a number in front. -/
def numberLengths (front : List UInt8) : Nat × Nat × Nat :=
  let whole := digitsLength front
  let fraction := fractionLength (front.drop whole)
  (whole, fraction, exponentLength (front.drop (whole + fraction)))

def number (front : List UInt8) : Lexeme :=
  let (whole, fraction, exponent) := numberLengths front
  let length := whole + fraction + exponent
  ⟨if fraction + exponent = 0 then .intLiteral else .doubleLiteral,
    ofBytes (front.take length), length⟩

def word (front : List UInt8) : Lexeme :=
  let run := front.takeWhile isWordByte
  let text := ofBytes run
  ⟨match Keyword.ofText? text with
    | some k => .keyword k
    | none => .identifier,
    text, run.length⟩

/-- The byte meant by a backslash and the byte behind it. -/
def unescape (b : UInt8) : UInt8 :=
  if b = 'n'.toUInt8 then '\n'.toUInt8
  else if b = 't'.toUInt8 then '\t'.toUInt8
  else if b = 'r'.toUInt8 then '\r'.toUInt8
  else b

/-- The bytes of a string up to its closing quote, and the length read. A string that is not closed,
or that a zero byte ends, yields the length read up to there. -/
def quoted : List UInt8 → Except Nat (List UInt8 × Nat)
  | [] => .error 0
  | [b] =>
    if b = '\''.toUInt8 then .ok ([], 1) else .error (if b = 0 then 0 else 1)
  | b :: next :: rest =>
    if b = 0 then .error 0
    else if b = '\''.toUInt8 then .ok ([], 1)
    else if b = '\\'.toUInt8 ∧ next ≠ 0 then
      match quoted rest with
      | .ok (value, length) => .ok (unescape next :: value, length + 2)
      | .error length => .error (length + 2)
    else
      match quoted (next :: rest) with
      | .ok (value, length) => .ok (b :: value, length + 1)
      | .error length => .error (length + 1)

/-- The symbol in front, the longest one that fits. -/
def symbol? (front : List UInt8) : Option Symbol :=
  Symbol.all.find? fun s => (bytes s.text).isPrefixOf front

/-- The first lexeme, or what is wrong with it and the length read before that was known. -/
def first : List UInt8 → Except (Cause × Nat) Lexeme
  | [] => .error (.unexpectedEnd, 0)
  | b :: rest =>
    if isWordStart b then .ok (word (b :: rest))
    else if isDigit b then .ok (number (b :: rest))
    else if b = '\''.toUInt8 then
      match quoted rest with
      | .ok (value, length) => .ok ⟨.stringLiteral, ofBytes value, length + 1⟩
      | .error length => .error (.unexpectedEnd, length + 1)
    else
      match symbol? (b :: rest) with
      | some s => .ok ⟨s, s.text, (bytes s.text).length⟩
      | none => .error (.undefinedToken (String.ofList ((ofBytes (b :: rest)).toList.take 1)), 0)

theorem word_length_pos {b : UInt8} (h : isWordStart b) (rest : List UInt8) :
    0 < (word (b :: rest)).length := by
  simp [word, isWordByte, h]

theorem number_length_pos {b : UInt8} (h : isDigit b) (rest : List UInt8) :
    0 < (number (b :: rest)).length := by
  have hd : 0 < digitsLength (b :: rest) := by simp [digitsLength, h]
  simp only [number, numberLengths]
  omega

theorem length_pos_of_first {front : List UInt8} {l : Lexeme} (h : first front = .ok l) :
    0 < l.length := by
  unfold first at h
  split at h
  · contradiction
  · split at h
    · next hw => cases h; exact word_length_pos hw _
    split at h
    · next hd => cases h; exact number_length_pos hd _
    split at h
    · split at h
      · cases h; exact Nat.succ_pos _
      · contradiction
    split at h
    · next s _ => cases h; cases s <;> decide
    · contradiction

end Lexeme

end ScriptSyntax
