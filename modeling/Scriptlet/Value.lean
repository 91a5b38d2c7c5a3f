import Scriptlet.Number
import Scriptlet.Program
import Scriptlet.Text.Blank

namespace Scriptlet

/-- A runtime value. Numbers, texts and truth values are held in place; arrays, objects and
everything that can be called are references into a store, so that two names may share one of them.
A reference counts the things of its own kind in the store. -/
inductive Value where
  | null
  | number (value : Float)
  | text (value : String)
  | boolean (value : Bool)
  | object (ref : Nat)
  | array (ref : Nat)
  | structType (ref : Nat)
  | native (ref : Nat)
  | function (ref : Nat)
  deriving Inhabited

namespace Value

inductive Kind where
  | null
  | number
  | text
  | boolean
  | object
  | array
  | structType
  | native
  | function
  deriving DecidableEq, Repr

def Kind.name : Kind → String
  | null => "Null"
  | number => "Number"
  | text => "String"
  | boolean => "Boolean"
  | object => "Object"
  | array => "Array"
  | structType => "Struct"
  | native => "NativeFunction"
  | function => "Function"

def kind : Value → Kind
  | null => .null
  | number _ => .number
  | text _ => .text
  | boolean _ => .boolean
  | object _ => .object
  | array _ => .array
  | structType _ => .structType
  | native _ => .native
  | function _ => .function

def isArithmetic : Value → Bool
  | number _ | boolean _ => true
  | _ => false

def isSchedulable : Value → Bool
  | function _ | native _ => true
  | _ => false

def isTruthy : Value → Bool
  | null => false
  | number x => !(x == 0) && !x.isNaN
  | text s => s ≠ ""
  | boolean b => b
  | _ => true

/-- The number that a text spells, blanks at its ends aside; a blank text is zero. -/
def numberOfText (s : String) : Float :=
  let trimmed := Text.trimBlank s.toList
  if trimmed.isEmpty then 0 else (Decimal.read? trimmed).getD Number.notANumber

def toNumber : Value → Float
  | null => 0
  | number x => x
  | boolean b => if b then 1 else 0
  | text s => numberOfText s
  | _ => Number.notANumber

/-- The whole number that a value stands for as a position; null stands for none. -/
def index? : Value → Option Nat
  | null => none
  | v => Number.natural? v.toNumber

def isLength : Value → Bool
  | text s => s = "length"
  | _ => false

/-- Equality in scripts: texts by content, a text and a number or truth value as numbers, and what
the store holds by being the same thing. -/
def looselyEquals : Value → Value → Bool
  | null, null => true
  | text a, text b => a = b
  | object a, object b => a = b
  | array a, array b => a = b
  | structType a, structType b => a = b
  | native a, native b => a = b
  | function a, function b => a = b
  | a@(text _), b => b.isArithmetic && a.toNumber == b.toNumber
  | a, b@(text _) => a.isArithmetic && a.toNumber == b.toNumber
  | a, b => a.isArithmetic && b.isArithmetic && a.toNumber == b.toNumber

/-- The order in scripts: texts by code points, all else as numbers. -/
def lessThan : Value → Value → Bool
  | text a, text b => a < b
  | a, b => a.toNumber < b.toNumber

def greaterThan (a b : Value) : Bool :=
  b.lessThan a

/-- A comparison; the flag admits equality to the two orders. -/
def compare (operator : LogicalOp) (equals : Bool) (a b : Value) : Bool :=
  match operator with
  | .equal => a.looselyEquals b
  | .notEqual => !a.looselyEquals b
  | .less => (equals && a.looselyEquals b) || a.lessThan b
  | .greater => (equals && a.looselyEquals b) || a.greaterThan b

end Value

end Scriptlet
