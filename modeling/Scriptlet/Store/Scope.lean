import Scriptlet.Fault
import Scriptlet.Store.Edit
import Scriptlet.Text.Quoted

namespace Scriptlet.Store

def outward (s : Store) : Nat → Nat → List Nat
  | 0, _ => []
  | n + 1, frame =>
    match s.frames[frame]? with
    | none => []
    | some f =>
      frame :: match f.parent with
        | none => []
        | some parent => s.outward n parent

def chain (s : Store) (frame : Nat) : List Nat :=
  s.outward s.frames.size frame

/-- How many frames there are from `frame` to the outermost one, both included. -/
def depth (s : Store) (frame : Nat) : Nat :=
  (s.chain frame).length

def bindingIn? (s : Store) (frame : Nat) (name : String) : Option Binding :=
  s.frames[frame]?.bind fun f => f.get? name

def declaresIn (s : Store) (frame : Nat) (name : String) : Bool :=
  (s.bindingIn? frame name).isSome

/-- The nearest frame that declares a name, going outward. -/
def resolve? (s : Store) (frame : Nat) (name : String) : Option Nat :=
  (s.chain frame).find? fun f => s.declaresIn f name

def resolves (s : Store) (frame : Nat) (name : String) : Bool :=
  (s.resolve? frame name).isSome

def lookup (s : Store) (frame : Nat) (name : String) : Except Fault Value :=
  match (s.resolve? frame name).bind fun f => s.bindingIn? f name with
  | some b => .ok b.value
  | none => .error (.undeclared name)

/-- Declares a name in one frame, which must not declare it yet. -/
def declare (s : Store) (frame : Nat) (name : String) (value : Value) (constant : Bool) :
    Except Fault Edit :=
  if s.declaresIn frame name then .error (.redeclared name)
  else .ok (.bind frame name ⟨value, constant⟩)

/-- Gives the variable that a name means at a frame another value, unless it is constant. -/
def assign (s : Store) (frame : Nat) (name : String) (value : Value) : Except Fault Edit :=
  match s.resolve? frame name with
  | none => .error (.unassigned name)
  | some owner =>
    match s.bindingIn? owner name with
    | none => .error (.unassigned name)
    | some b =>
      if b.constant then .error (.constantAssigned name) else .ok (.put owner name value)

/-- Makes a frame the one in which the function of a name, declared there, was declared. -/
def attachClosure (s : Store) (frame : Nat) (name : String) : Except Fault Edit :=
  match s.bindingIn? frame name with
  | none => .error (.undeclared name)
  | some b =>
    match b.value with
    | .function ref => .ok (.enclose ref frame)
    | other => .error (.mismatch (.noClosure other.kind name))

def namesIn (s : Store) (frame : Nat) : List String :=
  let names := match s.frames[frame]? with
    | some f => f.bindings.map Prod.fst
    | none => []
  names.mergeSort fun a b => !(b < a)

def describeFrame (s : Store) (frame : Nat) : String :=
  "Scope \x7b bindings: " ++ Text.quotedList (s.namesIn frame) ++
    s!", depth: {s.depth frame} " ++ "\x7d"

end Scriptlet.Store
