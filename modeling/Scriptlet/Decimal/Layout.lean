import Scriptlet.Decimal.Shortest

namespace Scriptlet.Decimal

def digitsOf (n : Nat) : List Char :=
  Nat.toDigits 10 n

def Scaled.positional (d : Scaled) : List Char :=
  let digits := digitsOf d.coefficient
  let point := (digits.length : Int) + d.exponent
  if point ≤ 0 then '0' :: '.' :: (List.replicate (-point).toNat '0' ++ digits)
  else if d.exponent < 0 then digits.take point.toNat ++ '.' :: digits.drop point.toNat
  else digits ++ List.replicate d.exponent.toNat '0'

def Scaled.scientific (d : Scaled) : List Char :=
  let digits := digitsOf d.coefficient
  let power := (digits.length : Int) + d.exponent - 1
  let tail := if digits.length ≤ 1 then [] else '.' :: digits.drop 1
  let sign := if power < 0 then '-' else '+'
  digits.take 1 ++ tail ++ 'e' :: sign :: digitsOf power.natAbs

/-- A double in full: every digit before and after the point, never an exponent, and the sign of a
zero. Equally short texts go to the upper neighbour. -/
def plainText (x : Float) : String :=
  if x.isNaN then "NaN"
  else if x.isInf then (if x < 0 then "-Infinity" else "Infinity")
  else
    let b := Binary.ofFloat x
    let digits := if b.mantissa = 0 then ['0'] else (shortest .up b).positional
    String.ofList (if b.negative then '-' :: digits else digits)

/-- A double as a JSON number with a fraction or an exponent; `none` where JSON has no such number.
The point is written out for powers of ten from -5 to 15. -/
def jsonText (x : Float) : Option String :=
  if x.isFinite then
    let b := Binary.ofFloat x
    let d := shortest .even b
    let power := ((digitsOf d.coefficient).length : Int) + d.exponent - 1
    let digits :=
      if b.mantissa = 0 then ['0', '.', '0']
      else if -5 ≤ power ∧ power ≤ 15 then
        if d.exponent < 0 then d.positional else d.positional ++ ['.', '0']
      else d.scientific
    some (String.ofList (if b.negative then '-' :: digits else digits))
  else none

end Scriptlet.Decimal
