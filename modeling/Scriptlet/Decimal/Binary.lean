namespace Scriptlet.Decimal

/-- The number `± mantissa · 2 ^ exponent`, so that questions about a double become questions about
natural numbers. -/
structure Binary where
  negative : Bool
  mantissa : Nat
  exponent : Int
  deriving DecidableEq, Repr

namespace Binary

/-- A finite double in parts. NaN and the infinities are no such number: test for them first. -/
def ofFloat (x : Float) : Binary :=
  let bits : Nat := x.toBits.toNat
  let fraction : Nat := bits % Nat.pow 2 52
  let scale : Nat := bits / Nat.pow 2 52 % Nat.pow 2 11
  let negative := bits / Nat.pow 2 63 == 1
  if scale = 0 then ⟨negative, fraction, -1074⟩
  else ⟨negative, Nat.pow 2 52 + fraction, (scale : Int) - 1075⟩

def toFloat (b : Binary) : Float :=
  let sign := if b.negative then Nat.pow 2 63 else 0
  if b.mantissa = 0 then Float.ofBits (UInt64.ofNat sign)
  else
    let exponent := max (b.exponent + (b.mantissa.log2 : Int) - 52) (-1074)
    let shift := b.exponent - exponent
    let mantissa := b.mantissa * Nat.pow 2 shift.toNat / Nat.pow 2 (-shift).toNat
    let magnitude :=
      if mantissa < Nat.pow 2 52 then mantissa
      else (exponent + 1075).toNat * Nat.pow 2 52 + (mantissa - Nat.pow 2 52)
    Float.ofBits (UInt64.ofNat (sign + magnitude))

def ratio (b : Binary) : Nat × Nat :=
  (b.mantissa * Nat.pow 2 b.exponent.toNat, Nat.pow 2 (-b.exponent).toNat)

def whole? (b : Binary) : Option Nat :=
  if b.ratio.1 % b.ratio.2 = 0 then some (b.ratio.1 / b.ratio.2) else none

end Binary

end Scriptlet.Decimal
