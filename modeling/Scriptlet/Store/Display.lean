import Scriptlet.Json
import Scriptlet.Json.BareKeys
import Scriptlet.Store

namespace Scriptlet.Store

inductive Cell where
  | array (ref : Nat)
  | object (ref : Nat)
  deriving DecidableEq, Repr

/-- What stands for an array or object inside itself. -/
def circular : Json :=
  .text "[Circular]"

/-- A number as JSON: whole if it is exactly so, null if it is not finite. -/
def numberJson (x : Float) : Json :=
  match Number.exactInteger? x with
  | some n => .integer n
  | none => if x.isFinite then .real x else .null

def describeStruct (t : StructType) : String :=
  "\x7b\n" ++ String.join (t.fields.map fun f => "\t" ++ f.name ++ ": " ++ f.typeName ++ "\n") ++
    "\x7d"

/-- A value as JSON, below the arrays and objects of `path`. A path never holds one of them twice,
so as many levels as there are in the store suffice. -/
def toJsonWithin (s : Store) : Nat → List Cell → Value → Json
  | _, _, .null => .null
  | _, _, .boolean b => .bool b
  | _, _, .text t => .text t
  | _, _, .number x => numberJson x
  | _, _, .structType ref => .text (describeStruct (s.structAt ref))
  | _, _, .native _ => .object [("NativeFunction", .bool true)]
  | _, _, .function _ => .object [("FunctionValue", .bool true)]
  | 0, _, .array _ => circular
  | 0, _, .object _ => circular
  | n + 1, path, .array ref =>
    if .array ref ∈ path then circular
    else .array ((s.elements ref).toList.map (s.toJsonWithin n (.array ref :: path)))
  | n + 1, path, .object ref =>
    if .object ref ∈ path then circular
    else .object ((s.objectAt ref).entries.map fun (k, v) =>
      (k, s.toJsonWithin n (.object ref :: path) v))

def toJson (s : Store) (v : Value) : Json :=
  s.toJsonWithin (s.arrays.size + s.objects.size + 1) [] v

def renderComposite (s : Store) (v : Value) : String :=
  String.ofList (Json.bareKeys ((s.toJson v).write 0))

/-- A value as a text. An array or object is shown as JSON with bare keys; one that lies inside
itself is cut off there. -/
def display (s : Store) : Value → String
  | .null => "null"
  | .number x => Number.text x
  | .text t => t
  | .boolean b => if b then "true" else "false"
  | .structType ref => describeStruct (s.structAt ref)
  | .native _ => "[NativeFunction]"
  | .function _ => "[Function]"
  | v@(.object _) => s.renderComposite v
  | v@(.array _) => s.renderComposite v

end Scriptlet.Store
