import ScriptSyntax.Number.Double
import ScriptSyntax.Token.Lexeme

/-!
The values of number literals. An integer has to fit a signed 64-bit word; a double has to have a
digit behind its exponent mark, and beyond the largest one it is infinite.
-/

namespace ScriptSyntax

open Text

/-- The number that some digits write. -/
def digitsValue (digits : List UInt8) : Nat :=
  digits.foldl (fun n b => 10 * n + (b.toNat - '0'.toUInt8.toNat)) 0

def intLiteral? (text : String) : Option Int :=
  let digits := bytes text
  if digits ≠ [] ∧ digits.all isDigit ∧ digitsValue digits < Nat.pow 2 63 then
    some (digitsValue digits)
  else none

/-- The value of an exponent with its mark; without digits it has none. -/
def exponentValue? : List UInt8 → Option Int
  | [] => some 0
  | _ :: rest =>
    let digits := rest.drop (Lexeme.signLength rest)
    if digits = [] then none
    else if rest.head? = some '-'.toUInt8 then some (-digitsValue digits)
    else some (digitsValue digits)

/-- The decimal number with the given digits, of which the last `places` stand behind the point. An
exponent so large that the double is infinite, or so small that it is zero, is cut short. -/
def Decimal.ofParts (digits : List UInt8) (places : Nat) (exponent : Int) : Decimal :=
  ⟨digitsValue digits, max (-(400 + digits.length)) (min 400 (exponent - places))⟩

def doubleLiteral? (text : String) : Option Double :=
  let front := bytes text
  let (whole, fraction, exponent) := Lexeme.numberLengths front
  if whole = 0 ∨ whole + fraction + exponent ≠ front.length then none
  else
    (exponentValue? (front.drop (whole + fraction))).map fun e =>
      .ofDecimal (.ofParts (front.take whole ++ ((front.drop whole).take fraction).drop 1)
        (fraction - 1) e)

end ScriptSyntax
