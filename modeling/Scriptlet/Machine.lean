import Scriptlet.Fault
import Scriptlet.Output
import Scriptlet.Random
import Scriptlet.Schedule
import Scriptlet.Store.Edit

namespace Scriptlet

/-- Everything that a running program can read or change. -/
structure Machine where
  store : Store
  output : Output
  schedule : Schedule
  random : Random
  /-- How many user functions are being called at this point. -/
  depth : Nat
  /-- How many of them there may be. -/
  limit : Nat

def defaultCallLimit : Nat := 100

/-- How an action ends: with a value, with a fault, which keeps what was done before it, or, when
the steps it was given do not suffice, not at all. -/
inductive Outcome (α : Type) where
  | done (value : α) (machine : Machine)
  | fault (cause : Fault) (machine : Machine)
  | starved

def Action (α : Type) : Type := Machine → Outcome α

namespace Action

@[inline]
protected def pure {α : Type} (a : α) : Action α :=
  fun m => .done a m

@[inline]
protected def bind {α β : Type} (x : Action α) (f : α → Action β) : Action β :=
  fun m => match x m with
    | .done a m' => f a m'
    | .fault e m' => .fault e m'
    | .starved => .starved

instance : Monad Action where
  pure := Action.pure
  bind := Action.bind

@[inline]
def run {α : Type} (x : Action α) (m : Machine) : Outcome α :=
  x m

@[inline]
def fail {α : Type} (e : Fault) : Action α :=
  fun m => .fault e m

@[inline]
def starve {α : Type} : Action α :=
  fun _ => .starved

@[inline]
def look {α : Type} (f : Machine → α) : Action α :=
  fun m => .done (f m) m

@[inline]
def modify (f : Machine → Machine) : Action Unit :=
  fun m => .done () (f m)

@[inline]
def read {α : Type} (f : Store → Except Fault α) : Action α :=
  fun m => match f m.store with
    | .ok a => .done a m
    | .error e => .fault e m

/-- Makes a change to the store that is read off it, which may fail. -/
@[inline]
def update (f : Store → Except Fault Edit) : Action Unit :=
  fun m => match f m.store with
    | .ok edit => .done () { m with store := m.store.apply edit }
    | .error e => .fault e m

@[inline]
def allocate {α : Type} (f : Store → α × Store) : Action α
  | ⟨store, output, schedule, random, depth, limit⟩ =>
    match f store with
    | (a, store) => .done a ⟨store, output, schedule, random, depth, limit⟩

end Action

end Scriptlet
