import Scriptlet.Machine

namespace Scriptlet

structure Settings where
  /-- How many frames follow the body of a program at most. -/
  maxFrames : Nat
  /-- How far the clock moves in a frame, in milliseconds. It may be any number. -/
  frameMs : Float
  /-- How many statements of the body run at most. -/
  maxSteps : Option Nat
  /-- The seed of the random numbers; without one they are not to be foreseen. -/
  seed : Option UInt64
  /-- How many user functions may be called at a time. -/
  maxCallDepth : Nat

namespace Settings

def default : Settings where
  maxFrames := 600
  frameMs := 16
  maxSteps := none
  seed := none
  maxCallDepth := defaultCallLimit

end Settings

end Scriptlet
