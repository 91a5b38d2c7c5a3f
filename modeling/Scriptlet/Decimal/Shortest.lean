import Scriptlet.Decimal.Binary

namespace Scriptlet.Decimal

/-- The number `coefficient · 10 ^ exponent`. -/
structure Scaled where
  coefficient : Nat
  exponent : Int
  deriving DecidableEq, Repr

inductive Tie where
  | up
  | even
  deriving DecidableEq, Repr

namespace Shortest

/-- A double's magnitude in quarter steps of its mantissa, with the ends of the interval of reals
that round to it. The lower gap is half as wide below a power of two. -/
structure Interval where
  low : Nat
  middle : Nat
  high : Nat
  /-- The unit in which the three are counted is `2 ^ unit`. -/
  unit : Int
  /-- Whether the ends round to the double as well, which they do when its mantissa is even. -/
  closed : Bool

def Interval.around (b : Binary) : Interval :=
  let middle := 4 * b.mantissa
  let low := if b.mantissa = Nat.pow 2 52 ∧ -1074 < b.exponent then middle - 1 else middle - 2
  ⟨low, middle, middle + 2, b.exponent - 2, b.mantissa % 2 == 0⟩

/-- `c · 10 ^ k` in the scale in which `Interval.scaled` counts. -/
def Interval.grid (i : Interval) (k : Int) (c : Nat) : Nat :=
  c * Nat.pow 10 k.toNat * Nat.pow 2 (-i.unit).toNat

def Interval.scaled (i : Interval) (k : Int) (n : Nat) : Nat :=
  n * Nat.pow 2 i.unit.toNat * Nat.pow 10 (-k).toNat

def Interval.holds (i : Interval) (k : Int) (c : Nat) : Bool :=
  let point := i.grid k c
  let low := i.scaled k i.low
  let high := i.scaled k i.high
  if i.closed then low ≤ point && point ≤ high else low < point && point < high

def Interval.floor (i : Interval) (k : Int) : Nat :=
  i.scaled k i.middle / i.grid k 1

def Interval.nearer (i : Interval) (tie : Tie) (k : Int) (c : Nat) : Nat :=
  let half := i.grid k (2 * c + 1)
  let middle := 2 * i.scaled k i.middle
  if middle < half then c
  else if half < middle then c + 1
  else match tie with
    | .up => c + 1
    | .even => if c % 2 = 0 then c else c + 1

/-- The decimal on the grid of `10 ^ k` that rounds to the double, if there is one. -/
def Interval.pick? (i : Interval) (tie : Tie) (k : Int) : Option Scaled :=
  let c := i.floor k
  match i.holds k c, i.holds k (c + 1) with
  | true, true => some ⟨i.nearer tie k c, k⟩
  | true, false => some ⟨c, k⟩
  | false, true => some ⟨c + 1, k⟩
  | false, false => none

/-- The power of ten of the first digit. The estimate from the power of two is at most one off. -/
def Interval.leading (i : Interval) : Int :=
  let guess := ((i.middle.log2 : Int) + i.unit) * 30103 / 100000
  if i.floor guess = 0 then guess - 1
  else if i.floor (guess + 1) = 0 then guess
  else guess + 1

/-- The first hit on ever finer grids, beginning with `10 ^ k`. Seventeen digits always suffice. -/
def Interval.search (i : Interval) (tie : Tie) : Nat → Int → Scaled
  | 0, k => ⟨i.floor k, k⟩
  | n + 1, k =>
    match i.pick? tie k with
    | some d => d
    | none => i.search tie n (k - 1)

def stripZeros : Nat → Scaled → Scaled
  | 0, d => d
  | n + 1, d =>
    if d.coefficient % 10 = 0 ∧ d.coefficient ≠ 0 then
      stripZeros n ⟨d.coefficient / 10, d.exponent + 1⟩
    else d

end Shortest

/-- The shortest decimal that reads back as the magnitude of `b`. Among decimals with the fewest
digits it is the nearest one, and of two that are equally near the one that `tie` names. -/
def shortest (tie : Tie) (b : Binary) : Scaled :=
  if b.mantissa = 0 then ⟨0, 0⟩
  else
    let i := Shortest.Interval.around b
    Shortest.stripZeros 17 (i.search tie 17 i.leading)

end Scriptlet.Decimal
