import Scriptlet.Machine
import Scriptlet.Store.Member

namespace Scriptlet

namespace Behaviour

def callback (name : String) : List Value → Action Value
  | [] => .fail (.native name .functionMissing)
  | v :: _ => if v.isSchedulable then pure v else .fail (.native name (.notAFunction v.kind))

def printAll : List Value → Action Unit
  | [] => pure ()
  | v :: vs => do
    Action.modify fun m => { m with output := m.output.write (m.store.display v) }
    printAll vs

/-- What the native `name` does with its arguments. It acts on the machine at once and calls nothing
back: callbacks are only put on the schedule. -/
def perform (name : String) (arguments : List Value) : Behaviour → Action Value
  | print => do
    printAll arguments
    return .null
  | clear => do
    Action.modify fun m => { m with output := m.output.clear }
    return .null
  | sqrt =>
    match arguments with
    | [] => .fail (.native name .numberMissing)
    | v :: _ => return .number v.toNumber.sqrt
  | rand => fun m =>
    match m.random.next with
    | (x, r) => .done (.number x) { m with random := r }
  | addElement =>
    match arguments with
    | .array ref :: vs => do
      Action.update fun _ => .ok (.pushElement ref (vs.headD .null))
      return .null
    | _ => return .null
  | time => do return .number (← Action.look (·.schedule.now))
  | interval => do
    let f ← callback name arguments
    let period := match arguments with
      | _ :: v :: _ => v.toNumber
      | _ => 0
    Action.modify fun m => { m with schedule := m.schedule.addInterval f period }
    return .null
  | nextFrame => do
    let f ← callback name arguments
    Action.modify fun m => { m with schedule := m.schedule.requestFrame f }
    return .null
  | collect => Action.allocate fun s => s.addArray arguments.toArray
  | constantly v => return v

end Behaviour

namespace Native

/-- Calls a native, which must be given at least as many arguments as it asks for. -/
def call (native : Native) (arguments : List Value) : Action Value :=
  match native.arity with
  | some n =>
    if arguments.length < n then .fail (.native native.name (.tooFewArguments n arguments.length))
    else native.behaviour.perform native.name arguments
  | none => native.behaviour.perform native.name arguments

end Native

end Scriptlet
