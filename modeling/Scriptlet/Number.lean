import Scriptlet.Decimal.Layout
import Scriptlet.Decimal.Read

namespace Scriptlet.Number

open Scriptlet.Decimal

def notANumber : Float :=
  Float.ofBits 0x7FF8000000000000

/-- What is left of `x` after taking away `y` a whole number of times, cut toward zero. It is
exact and has the sign of `x`. -/
def remainder (x y : Float) : Float :=
  if x.isNaN || y.isNaN || x.isInf || y == 0 then notANumber
  else if y.isInf then x
  else
    let a := Binary.ofFloat x
    let b := Binary.ofFloat y
    let exponent := min a.exponent b.exponent
    let left := a.mantissa * Nat.pow 2 (a.exponent - exponent).toNat
    let right := b.mantissa * Nat.pow 2 (b.exponent - exponent).toNat
    Binary.toFloat ⟨a.negative, left % right, exponent⟩

def natural? (x : Float) : Option Nat :=
  if x.isFinite && 0 ≤ x then (Binary.ofFloat x).whole? else none

/-- The integer that a double is, if it is one below `2 ^ 53` in magnitude. Both zeros are `0`. -/
def exactInteger? (x : Float) : Option Int :=
  if x.isFinite then
    let b := Binary.ofFloat x
    match b.whole? with
    | some n => if n < Nat.pow 2 53 then some (if b.negative then -(n : Int) else n) else none
    | none => none
  else none

/-- The text of a number; a zero has no sign. -/
def text (x : Float) : String :=
  if x == 0 then "0" else plainText x

end Scriptlet.Number
