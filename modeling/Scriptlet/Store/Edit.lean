import Scriptlet.Store

namespace Scriptlet

/-- A change to one thing that a store holds already. There are few kinds, so that what all of them
keep can be read off one by one. -/
inductive Edit where
  | bind (frame : Nat) (name : String) (binding : Binding)
  | put (frame : Nat) (name : String) (value : Value)
  /-- Makes a frame the one in which a function was declared. -/
  | enclose (function frame : Nat)
  | setEntry (object : Nat) (key : String) (value : Value)
  | setElement (array index : Nat) (value : Value)
  | pushElement (array : Nat) (value : Value)

/-- A store with a change made. An edit of something that is not there changes nothing. -/
def Store.apply (s : Store) : Edit → Store
  | .bind frame name binding => { s with frames := s.frames.modify frame (·.bind name binding) }
  | .put frame name value => { s with frames := s.frames.modify frame (·.put name value) }
  | .enclose function frame =>
    { s with functions := s.functions.modify function fun f => { f with closure := frame } }
  | .setEntry object key value =>
    { s with objects := s.objects.modify object (·.set key value) }
  | .setElement array index value =>
    { s with arrays := s.arrays.modify array (·.setIfInBounds index value) }
  | .pushElement array value => { s with arrays := s.arrays.modify array (·.push value) }

end Scriptlet
