import ScriptSyntax.Number.Double

/-!
The text of a double: the fewest decimal digits that read back, nearest to the value among those,
the larger of two equally near.
-/

namespace ScriptSyntax

namespace Double

/-- Whether a decimal number reads back as the double, whatever its sign. -/
def readsAs (d : Decimal) (x : Double) : Bool := (ofDecimal d).magnitude = x.magnitude

/-- Of the two neighbours of a double among the multiples of `10 ^ exponent`, the nearer one that
reads back as the double. -/
def neighbour? (x : Double) (exponent : Int) : Option Decimal :=
  let numerator := x.units * Nat.pow 10 (-exponent).toNat
  let denominator := unitsOfOne * Nat.pow 10 exponent.toNat
  let below : Decimal := ⟨numerator / denominator, exponent⟩
  let above : Decimal := ⟨numerator / denominator + 1, exponent⟩
  if readsAs below x ∧
      (readsAs above x = false ∨ 2 * (numerator % denominator) < denominator) then some below
  else if readsAs above x then some above
  else none

/-- The least `p` with `x < 10 ^ p`. -/
def decimalPlaces (x : Double) : Int :=
  (Nat.toDigits 10 (x.units * Nat.pow 10 400 / unitsOfOne)).length - 400

/-- Seventeen digits always suffice; the exact value stands behind them. -/
def shortest (x : Double) : Decimal :=
  if x.units = 0 then ⟨0, 0⟩
  else
    let places := x.decimalPlaces
    ((List.range 17).findSome? fun n : Nat => x.neighbour? (places - (n + 1))).getD
      ⟨x.units * Nat.pow 5 1074, -1074⟩

end Double

/-- Positional from 0.0001 up to 10 ^ 16 and for zero, always with a point; otherwise one digit in
front of the point and an exponent. -/
def Decimal.text (d : Decimal) : String :=
  let written := Nat.toDigits 10 d.digits
  let digits := (written.reverse.dropWhile (· = '0')).reverse
  let point : Int := written.length + d.exponent
  let zeros := fun n => List.replicate n '0'
  String.ofList <|
    if point < -3 ∨ 16 < point then
      let fraction := if digits.length ≤ 1 then [] else '.' :: digits.drop 1
      digits.take 1 ++ fraction ++ 'e' :: (toString (point - 1)).toList
    else if point ≤ 0 then '0' :: '.' :: zeros (-point).toNat ++ digits
    else if digits.length ≤ point.toNat then
      digits ++ zeros (point.toNat - digits.length) ++ ['.', '0']
    else digits.take point.toNat ++ '.' :: digits.drop point.toNat

def Double.text (x : Double) : String :=
  if x.isNaN then "NaN"
  else (if x.isNegative then "-" else "") ++ if x.isFinite then x.shortest.text else "inf"

end ScriptSyntax
