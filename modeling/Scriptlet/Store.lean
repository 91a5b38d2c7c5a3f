import Scriptlet.Text.Quoted
import Scriptlet.Value

namespace Scriptlet

structure Binding where
  value : Value
  constant : Bool

/-- The variables declared in one place, in the order of their declaration, and the frame around
that place. -/
structure Frame where
  parent : Option Nat
  bindings : List (String × Binding)

namespace Frame

/-- The variable of a name in this very frame. -/
def get? (f : Frame) (name : String) : Option Binding :=
  f.bindings.lookup name

def declares (f : Frame) (name : String) : Bool :=
  (f.get? name).isSome

def bind (f : Frame) (name : String) (binding : Binding) : Frame :=
  { f with bindings := f.bindings ++ [(name, binding)] }

def put (f : Frame) (name : String) (value : Value) : Frame :=
  { f with bindings := f.bindings.map fun (n, b) =>
      if n = name then (n, { b with value }) else (n, b) }

end Frame

/-- An object: entries in the order of their first write, and the struct that built it. -/
structure Object where
  entries : List (String × Value)
  tag : Option String

namespace Object

def empty : Object := ⟨[], none⟩

def get? (o : Object) (key : String) : Option Value :=
  o.entries.lookup key

/-- Entries with a key written: in its place if it is there, else at the end. -/
def setEntry (key : String) (value : Value) : List (String × Value) → List (String × Value)
  | [] => [(key, value)]
  | (k, v) :: es => if k = key then (k, value) :: es else (k, v) :: setEntry key value es

def set (o : Object) (key : String) (value : Value) : Object :=
  { o with entries := setEntry key value o.entries }

def ofEntries (entries : List (String × Value)) : Object :=
  entries.foldl (fun o e => o.set e.1 e.2) empty

end Object

structure StructType where
  name : String
  fields : List Field

/-- A user function and the frame that it was declared in. -/
structure Function where
  name : String
  parameters : List String
  body : List Stmt
  closure : Nat

def Function.describe (f : Function) : String :=
  "FunctionValue \x7b name: " ++ Text.quoted f.name ++ ", parameters: " ++
    Text.quotedList f.parameters ++ ", .. \x7d"

inductive Behaviour where
  | print
  | clear
  | sqrt
  | rand
  | addElement
  | time
  | interval
  | nextFrame
  /-- Gives its arguments back in a new array. -/
  | collect
  /-- Always gives the same value. -/
  | constantly (value : Value)

/-- A native function: its name, how many arguments it asks for, and what it does. -/
structure Native where
  name : String
  arity : Option Nat
  behaviour : Behaviour

def Native.describe (n : Native) : String :=
  "NativeFunction(" ++ n.name ++ ")"

/-- Everything that values and frames refer to. Nothing is ever taken out of it, so a reference once
given stays good. -/
structure Store where
  frames : Array Frame
  objects : Array Object
  arrays : Array (Array Value)
  structs : Array StructType
  natives : Array Native
  functions : Array Function

namespace Store

def empty : Store := ⟨#[], #[], #[], #[], #[], #[]⟩

def elements (s : Store) (ref : Nat) : Array Value :=
  s.arrays.getD ref #[]

def objectAt (s : Store) (ref : Nat) : Object :=
  s.objects.getD ref .empty

theorem array_lt_of_mem {s : Store} {ref : Nat} {v : Value} (h : v ∈ (s.elements ref).toList) :
    ref < s.arrays.size := by
  by_cases hlt : ref < s.arrays.size
  · exact hlt
  · simp [elements, hlt] at h

theorem object_lt_of_mem {s : Store} {ref : Nat} {e : String × Value}
    (h : e ∈ (s.objectAt ref).entries) : ref < s.objects.size := by
  by_cases hlt : ref < s.objects.size
  · exact hlt
  · simp [objectAt, hlt, Object.empty] at h

def structAt (s : Store) (ref : Nat) : StructType :=
  s.structs.getD ref ⟨"", []⟩

def addArray (s : Store) (values : Array Value) : Value × Store :=
  (.array s.arrays.size, { s with arrays := s.arrays.push values })

def addObject (s : Store) (object : Object) : Value × Store :=
  (.object s.objects.size, { s with objects := s.objects.push object })

def addStruct (s : Store) (struct : StructType) : Value × Store :=
  (.structType s.structs.size, { s with structs := s.structs.push struct })

def addNative (s : Store) (native : Native) : Value × Store :=
  (.native s.natives.size, { s with natives := s.natives.push native })

def addFunction (s : Store) (function : Function) : Value × Store :=
  (.function s.functions.size, { s with functions := s.functions.push function })

def addFrame (s : Store) (parent : Option Nat) : Nat × Store :=
  (s.frames.size, { s with frames := s.frames.push ⟨parent, []⟩ })

/-- The struct that built a value, if one did. -/
def tagOf (s : Store) : Value → Option String
  | .object ref => (s.objectAt ref).tag
  | _ => none

end Store

end Scriptlet
