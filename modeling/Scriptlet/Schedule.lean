import Scriptlet.Value

namespace Scriptlet

/-- A callback that returns every `period` milliseconds, next at `due`. -/
structure Interval where
  callback : Value
  period : Float
  due : Float

/-- A callback that became due, and its place among the intervals. -/
structure Firing where
  due : Float
  order : Nat
  callback : Value

/-- The clock in milliseconds and the callbacks that wait for it. Once stopped, a schedule takes
nothing and gives nothing out. -/
structure Schedule where
  now : Float
  intervals : List Interval
  frames : List Value
  stopped : Bool

namespace Interval

/-- The due times up to `now`, the latest first, on top of `times`, and the interval after them.
There is no answer if `n` of them do not reach `now`. -/
def catchUp? (now : Float) : Nat → Interval → List Float → Option (List Float × Interval)
  | n, i, times =>
    if i.due ≤ now then
      match n with
      | 0 => none
      | n + 1 => catchUp? now n { i with due := i.due + i.period } (i.due :: times)
    else some (times, i)

/-- Moves all intervals to `now`, with their firings. Intervals count from `order`. -/
def advanceAll? (fuel : Nat) (now : Float) : Nat → List Interval →
    Option (List Firing × List Interval)
  | _, [] => some ([], [])
  | order, i :: is =>
    match catchUp? now fuel i [] with
    | none => none
    | some (times, i') =>
      match advanceAll? fuel now (order + 1) is with
      | none => none
      | some (firings, is') =>
        some (times.reverse.map (⟨·, order, i.callback⟩) ++ firings, i' :: is')

end Interval

/-- Whether a firing comes no later than another: by due time, then by place. -/
def Firing.precedes (a b : Firing) : Bool :=
  a.due < b.due || (a.due == b.due && a.order ≤ b.order)

namespace Schedule

def idle : Schedule := ⟨0, [], [], false⟩

def minPeriod : Float := 1

/-- A period as it is kept: at least the shortest one, which also stands for no finite number. -/
def clampPeriod (period : Float) : Float :=
  if period.isFinite && minPeriod < period then period else minPeriod

def addInterval (s : Schedule) (callback : Value) (period : Float) : Schedule :=
  if s.stopped then s
  else
    let period := clampPeriod period
    { s with intervals := s.intervals ++ [⟨callback, period, s.now + period⟩] }

def requestFrame (s : Schedule) (callback : Value) : Schedule :=
  if s.stopped then s else { s with frames := s.frames ++ [callback] }

/-- Moves the clock and gives out what is due: callbacks of the frame in the order of their
requests, then firings of intervals by due time. There is no answer if an interval has more than
`fuel` firings to catch up with. -/
def advance? (s : Schedule) (fuel : Nat) (elapsed : Float) : Option (List Value × Schedule) :=
  if s.stopped then some ([], s)
  else
    let now := s.now + elapsed
    match Interval.advanceAll? fuel now 0 s.intervals with
    | none => none
    | some (firings, intervals) =>
      let sorted := firings.mergeSort Firing.precedes
      some (s.frames ++ sorted.map Firing.callback, { s with now, intervals, frames := [] })

def pending (s : Schedule) : Nat :=
  s.frames.length + s.intervals.length

def stop (s : Schedule) : Schedule :=
  { s with intervals := [], frames := [], stopped := true }

end Schedule

end Scriptlet
