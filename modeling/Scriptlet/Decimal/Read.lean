import Scriptlet.Decimal.Binary

namespace Scriptlet.Decimal

def isDigit (c : Char) : Bool :=
  '0' ≤ c && c ≤ '9'

def ofDigits (cs : List Char) : Nat :=
  cs.foldl (fun n c => 10 * n + (c.toNat - '0'.toNat)) 0

/-- The double nearest to `coefficient · 10 ^ exponent`. Beyond the range of doubles the power is
not computed. -/
def nearest (coefficient : Nat) (exponent : Int) : Float :=
  if coefficient = 0 then 0
  else
    let point := ((Nat.toDigits 10 coefficient).length : Int) + exponent
    if 310 < point then Float.ofBits 0x7FF0000000000000
    else if point < -330 then 0
    else Float.ofScientific coefficient (exponent < 0) exponent.natAbs

def splitSign : List Char → Bool × List Char
  | '-' :: cs => (true, cs)
  | '+' :: cs => (false, cs)
  | cs => (false, cs)

def readExponent? : List Char → Option Int
  | [] => some 0
  | c :: cs =>
    if c = 'e' || c = 'E' then
      let (negative, digits) := splitSign cs
      if digits.isEmpty || !digits.all isDigit then none
      else some (if negative then -(ofDigits digits : Int) else ofDigits digits)
    else none

def readDigits? (cs : List Char) : Option Float :=
  let whole := cs.takeWhile isDigit
  let rest := cs.dropWhile isDigit
  let (fraction, rest) :=
    match rest with
    | '.' :: more => (more.takeWhile isDigit, more.dropWhile isDigit)
    | _ => ([], rest)
  if whole.isEmpty && fraction.isEmpty then none
  else (readExponent? rest).map fun e =>
    nearest (ofDigits (whole ++ fraction)) (e - fraction.length)

/-- An unsigned number: a name in any case, or digits. -/
def readUnsigned? (cs : List Char) : Option Float :=
  let name := cs.map Char.toLower
  if name = "inf".toList ∨ name = "infinity".toList then some (Float.ofBits 0x7FF0000000000000)
  else if name = "nan".toList then some (Float.ofBits 0x7FF8000000000000)
  else readDigits? cs

/-- The double nearest to the number that a whole text spells: an optional sign, then a name of an
infinity or of NaN, or digits with an optional point and an optional exponent. -/
def read? (cs : List Char) : Option Float :=
  let (negative, rest) := splitSign cs
  (readUnsigned? rest).map fun x => if negative then -x else x

end Scriptlet.Decimal
