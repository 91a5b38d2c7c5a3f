import Scriptlet.Machine.Eval

namespace Scriptlet

/-- How far a run has come: the number of the next statement, and the value of the last one. -/
structure Progress where
  position : Nat
  last : Value

inductive Step where
  /-- One statement ran. -/
  | yielded
  /-- No statement was left; the value is that of the last one. -/
  | finished (value : Value)

namespace Progress

def start : Progress := ⟨0, .null⟩

def isFinished (p : Progress) (program : Program) : Bool :=
  program.body.length ≤ p.position

/-- Runs the next statement of a program at its root frame. A fault moves to the end, and at the end
further steps change nothing. -/
def advance (fuel : Nat) (program : Program) (root : Nat) (p : Progress) (m : Machine) :
    Progress × Outcome Step :=
  match program.body[p.position]? with
  | none => (p, .done (.finished p.last) m)
  | some stmt =>
    match Machine.execute root fuel stmt m with
    | .done flow m' => (⟨p.position + 1, flow.value⟩, .done .yielded m')
    | .fault e m' => (⟨program.body.length, .null⟩, .fault e m')
    | .starved => (p, .starved)

/-- Runs the next statement as if no call were under way and under the usual limit of calls. -/
def advanceAfresh (fuel : Nat) (program : Program) (root : Nat) (p : Progress) (m : Machine) :
    Progress × Outcome Step :=
  match p.advance fuel program root { m with depth := 0, limit := defaultCallLimit } with
  | (p', .done s m') => (p', .done s { m' with depth := m.depth, limit := m.limit })
  | (p', .fault e m') => (p', .fault e { m' with depth := m.depth, limit := m.limit })
  | (p', .starved) => (p', .starved)

end Progress

structure Execution where
  program : Program
  root : Nat
  progress : Progress

namespace Execution

def start (program : Program) (root : Nat) : Execution :=
  ⟨program, root, .start⟩

def isFinished (e : Execution) : Bool :=
  e.progress.isFinished e.program

def step (fuel : Nat) (e : Execution) (m : Machine) : Execution × Outcome Step :=
  match e.progress.advance fuel e.program e.root m with
  | (p, outcome) => ({ e with progress := p }, outcome)

def limitReached (limit : Option Nat) (steps : Nat) : Bool :=
  match limit with
  | some k => k ≤ steps
  | none => false

/-- Steps until nothing is left, or until `limit` steps are made and something is left; then the
value is null. Of the steps counted down there is one more than statements. -/
def runWithin (fuel : Nat) (limit : Option Nat) :
    Nat → Nat → Execution → Machine → Execution × Outcome Value
  | 0, _, e, _ => (e, .starved)
  | n + 1, steps, e, m =>
    if limitReached limit steps && !e.isFinished then (e, .done .null m)
    else
      match e.step fuel m with
      | (e', .done .yielded m') => runWithin fuel limit n (steps + 1) e' m'
      | (e', .done (.finished v) m') => (e', .done v m')
      | (e', .fault c m') => (e', .fault c m')
      | (e', .starved) => (e', .starved)

/-- Steps at most `limit` times. -/
def runLimited (fuel : Nat) (limit : Option Nat) (e : Execution) (m : Machine) :
    Execution × Outcome Value :=
  runWithin fuel limit (e.program.body.length + 1) 0 e m

def finish (fuel : Nat) (e : Execution) (m : Machine) : Execution × Outcome Value :=
  e.runLimited fuel none m

end Execution

end Scriptlet
