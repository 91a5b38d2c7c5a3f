import Scriptlet.Machine.Eval

namespace Scriptlet

structure Tool where
  name : String
  description : String
  arity : Option Nat
  behaviour : Behaviour

def Tool.native (t : Tool) : Native :=
  ⟨t.name, t.arity, t.behaviour⟩

/-- Tools in the order of their names, each name once, and constants in the order in which they
were added. -/
structure Toolbox where
  tools : List Tool
  constants : List (String × Value)

namespace Toolbox

def empty : Toolbox := ⟨[], []⟩

/-- Tools with one put in its place; it takes the place of one of the same name. -/
def insert (tool : Tool) : List Tool → List Tool
  | [] => [tool]
  | t :: ts =>
    if t.name = tool.name then tool :: ts
    else if tool.name < t.name then tool :: t :: ts
    else t :: insert tool ts

def register (box : Toolbox) (tool : Tool) : Toolbox :=
  { box with tools := insert tool box.tools }

def registerConstant (box : Toolbox) (name : String) (value : Value) : Toolbox :=
  { box with constants := box.constants ++ [(name, value)] }

def find? (box : Toolbox) (name : String) : Option Tool :=
  box.tools.find? fun t => t.name = name

def contains (box : Toolbox) (name : String) : Bool :=
  (box.find? name).isSome

/-- The tool of a name, or the fault that there is none. -/
def get (box : Toolbox) (name : String) : Except Fault Tool :=
  match box.find? name with
  | some t => .ok t
  | none => .error (.undeclared name)

def names (box : Toolbox) : List String :=
  box.tools.map Tool.name

def size (box : Toolbox) : Nat :=
  box.tools.length

def installConstants (frame : Nat) : List (String × Value) → Action Unit
  | [] => pure ()
  | (name, value) :: rest => do
    Machine.declare frame name value true
    installConstants frame rest

def installTools (frame : Nat) : List Tool → Action Unit
  | [] => pure ()
  | t :: rest => do
    let v ← Action.allocate fun s => s.addNative t.native
    Machine.declare frame t.name v true
    installTools frame rest

/-- Declares everything in a frame, constants first. -/
def install (box : Toolbox) (frame : Nat) : Action Unit := do
  installConstants frame box.constants
  installTools frame box.tools

def standard : Toolbox where
  tools :=
    [⟨"addElement", "Append a value to an array", none, .addElement⟩,
      ⟨"clear", "Clear the output", none, .clear⟩,
      ⟨"interval", "Call a function repeatedly", some 1, .interval⟩,
      ⟨"nextFrame", "Call a function on the next frame", some 1, .nextFrame⟩,
      ⟨"print", "Write values to the output, one entry per argument", none, .print⟩,
      ⟨"rand", "Uniform random number in [0, 1)", none, .rand⟩,
      ⟨"sqrt", "Square root", some 1, .sqrt⟩,
      ⟨"time", "Milliseconds since the run started", none, .time⟩]
  constants := [("true", .boolean true), ("false", .boolean false), ("null", .null)]

end Toolbox

end Scriptlet
