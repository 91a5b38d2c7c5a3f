import Scriptlet.Error
import Scriptlet.Execution
import Scriptlet.Program.Parse
import Scriptlet.Settings
import Scriptlet.Toolbox

namespace Scriptlet

/-- Settings, what was printed so far, and the schedule of the latest run. What was printed stays
from one run to the next; all else begins anew. -/
structure Host where
  settings : Settings
  output : Output
  schedule : Schedule
  /-- The seed of the random numbers where the settings give none. -/
  entropy : UInt64

/-- How a run ended: the result, the store in which its value lives, and the host after it. -/
structure Run where
  result : Except Error Value
  store : Store
  host : Host

namespace Host

def new (settings : Settings) : Host :=
  ⟨settings, .empty, .idle, 0⟩

def stop (h : Host) : Host :=
  { h with schedule := h.schedule.stop }

def root : Nat := 0

/-- The machine on which a run begins, before anything is installed. -/
def machine (h : Host) : Machine where
  store := (Store.empty.addFrame none).2
  output := h.output
  schedule := .idle
  random := .ofSeed (h.settings.seed.getD h.entropy)
  depth := 0
  limit := h.settings.maxCallDepth

/-- Calls callbacks one after another, as long as the schedule is not stopped. -/
def callAll (fuel : Nat) : List Value → Action Unit
  | [] => pure ()
  | f :: fs => do
    if ← Action.look (·.schedule.stopped) then return ()
    else
      let _ ← Machine.call fuel f []
      callAll fuel fs

def runFrame (fuel : Nat) (frameMs : Float) : Action Unit :=
  fun m =>
    match m.schedule.advance? fuel frameMs with
    | none => .starved
    | some (due, schedule) => callAll fuel due { m with schedule }

def runFrames (fuel : Nat) (frameMs : Float) : Nat → Action Unit
  | 0 => pure ()
  | n + 1 => do
    let schedule ← Action.look Machine.schedule
    if schedule.stopped || schedule.pending == 0 then return ()
    else
      runFrame fuel frameMs
      runFrames fuel frameMs n

/-- Runs the body of a program and then frame after frame for as long as callbacks wait. The value
is that of the body. -/
def drive (fuel : Nat) (settings : Settings) (program : Program) : Action Value := do
  Toolbox.standard.install root
  let value ← fun m => ((Execution.start program root).runLimited fuel settings.maxSteps m).2
  runFrames fuel settings.frameMs settings.maxFrames
  return value

def after (h : Host) (m : Machine) : Host :=
  { h with output := m.output, schedule := m.schedule.stop }

/-- Runs a program in a root frame of its own. There is no answer if the bound on steps does not
suffice. -/
def runProgram (fuel : Nat) (h : Host) (program : Program) : Option Run :=
  match drive fuel h.settings program h.machine with
  | .done v m => some ⟨.ok v, m.store, h.after m⟩
  | .fault e m => some ⟨.error (.runtime e), m.store, h.after m⟩
  | .starved => none

/-- Scans, parses and runs a source text. A text that is no program leaves the host as it was. -/
def runSource (fuel : Nat) (h : Host) (source : String) : Option Run :=
  match Token.scan source with
  | .error e => some ⟨.error (.scan e), .empty, h⟩
  | .ok tokens =>
    match Program.parse tokens with
    | .error e => some ⟨.error (.parse e), .empty, h⟩
    | .ok program => h.runProgram fuel program

end Host

end Scriptlet
