import Scriptlet.Fault
import Scriptlet.Store.Display
import Scriptlet.Store.Edit

namespace Scriptlet.Store

/-- Reads a member: an entry of an object, an element of an array or a character of a text. What is
not there reads as null. -/
def getMember (s : Store) (target key : Value) : Except Fault Value :=
  match target with
  | .object ref => .ok (((s.objectAt ref).get? (s.display key)).getD .null)
  | .array ref =>
    let values := s.elements ref
    if key.isLength then .ok (.number (Float.ofNat values.size))
    else .ok ((key.index?.bind fun i => values[i]?).getD .null)
  | .text t =>
    let chars := t.toList
    if key.isLength then .ok (.number (Float.ofNat chars.length))
    else .ok (((key.index?.bind fun i => chars[i]?).map fun c =>
      .text (String.singleton c)).getD .null)
  | other =>
    .error (.mismatch (.unreadableMember (s.display key) other.kind (s.display other)))

/-- Writes a member. A write to an array replaces an element or adds one right behind the last. -/
def setMember (s : Store) (target key value : Value) : Except Fault Edit :=
  match target with
  | .object ref => .ok (.setEntry ref (s.display key) value)
  | .array ref =>
    match key.index? with
    | none => .error (.mismatch (.indexNotWhole (s.display key)))
    | some i =>
      let length := (s.elements ref).size
      if i < length then .ok (.setElement ref i value)
      else if i = length then .ok (.pushElement ref value)
      else .error (.mismatch (.indexPastEnd (s.display key) length))
  | other =>
    .error (.mismatch (.unwritableMember (s.display key) other.kind (s.display other)))

/-- The entries of a new object of struct `struct` from its fields and arguments, on top of the
entries that are there. -/
def bindFields (s : Store) (struct : String) : List Field → List Value → Object →
    Except Fault Object
  | [], _, o => .ok { o with tag := some struct }
  | f :: _, [], _ => .error (.missingField struct f.name)
  | f :: fs, v :: vs, o =>
    if v.kind.name = f.typeName ∨ s.tagOf v = some f.typeName then
      s.bindFields struct fs vs (o.set f.name v)
    else
      .error (.mismatch (.wrongField f.name struct f.typeName v.kind (s.display v)))

def instantiate (s : Store) (t : StructType) (arguments : List Value) : Except Fault Object :=
  s.bindFields t.name t.fields arguments .empty

/-- Arithmetic. A text on either side makes a sum a joined text and a difference one of numbers;
any other operator then has no answer. -/
def binary (s : Store) (operator : BinaryOp) (left right : Value) : Except Fault Value :=
  if left.kind = .text ∨ right.kind = .text then
    match operator with
    | .add => .ok (.text (s.display left ++ s.display right))
    | .sub => .ok (.number (left.toNumber - right.toNumber))
    | _ => .ok .null
  else if !left.isArithmetic then
    .error (.mismatch (.notArithmetic left.kind (s.display left) operator))
  else if !right.isArithmetic then
    .error (.mismatch (.notArithmetic right.kind (s.display right) operator))
  else
    let l := left.toNumber
    let r := right.toNumber
    match operator with
    | .add => .ok (.number (l + r))
    | .sub => .ok (.number (l - r))
    | .mul => .ok (.number (l * r))
    | .div => if r == 0 then .error .divisionByZero else .ok (.number (l / r))
    | .mod => if r == 0 then .error .divisionByZero else .ok (.number (Number.remainder l r))

end Scriptlet.Store
