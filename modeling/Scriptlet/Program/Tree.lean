import Scriptlet.Decimal.Read
import Scriptlet.Json
import Scriptlet.Program
import Scriptlet.Token

namespace Scriptlet

namespace Token

def toJson (t : Token) : Json :=
  .object [("kind", .text t.kind.name), ("text", .text t.text),
    ("location", .object [("line", .integer t.position.line),
      ("column", .integer t.position.column)])]

end Token

def Field.toJson (f : Field) : Json :=
  .object [("name", .text f.name), ("type_name", .text f.typeName)]

namespace Json

/-- A number as JSON. One that is not finite becomes null, which cannot be read back. -/
def ofFloat (x : Float) : Json :=
  if x.isFinite then .real x else .null

/-- A node: an object whose one key names what it is. -/
def node (name : String) (content : Json) : Json :=
  .object [(name, content)]

def nodeOf (name : String) (parts : List (String × Json)) : Json :=
  node name (.object parts)

end Json

mutual

def Expr.toJson : Expr → Json
  | .number x => .node "NumericLiteral" (.ofFloat x)
  | .text s => .node "StringLiteral" (.text s)
  | .array es => .node "ArrayLiteral" (.array (Expr.listToJson es))
  | .object ps => .node "ObjectLiteral" (.array (Property.listToJson ps))
  | .identifier name => .node "Identifier" (.text name)
  | .assign name value =>
    .nodeOf "VariableAssignment" [("name", .text name), ("value", value.toJson)]
  | .call callee arguments =>
    .nodeOf "FunctionCall"
      [("callee", callee.toJson), ("arguments", .array (Expr.listToJson arguments))]
  | .member object member computed none =>
    .nodeOf "ObjectMember" [("object", object.toJson), ("member", member.toJson),
      ("computed", .bool computed), ("assignment", .null)]
  | .member object member computed (some value) =>
    .nodeOf "ObjectMember" [("object", object.toJson), ("member", member.toJson),
      ("computed", .bool computed), ("assignment", value.toJson)]
  | .boolean left operator right =>
    .nodeOf "BooleanExpression" [("left", left.toJson), ("operator", .text operator.name),
      ("right", right.toJson)]
  | .binary left operator right =>
    .nodeOf "BinaryExpression" [("left", left.toJson), ("operator", .text operator.name),
      ("right", right.toJson)]
  | .logical left operator equals right =>
    .nodeOf "LogicalExpression" [("left", left.toJson), ("operator", .text operator.name),
      ("equals", .bool equals), ("right", right.toJson)]
  | .not operand => .node "NotExpression" operand.toJson

def Expr.listToJson : List Expr → List Json
  | [] => []
  | e :: es => e.toJson :: Expr.listToJson es

def Property.toJson : Property → Json
  | .shorthand key => .object [("key", .text key), ("value", .null)]
  | .valued key value => .object [("key", .text key), ("value", value.toJson)]

def Property.listToJson : List Property → List Json
  | [] => []
  | p :: ps => p.toJson :: Property.listToJson ps

end

mutual

def Stmt.toJson : Stmt → Json
  | .structDecl name fields =>
    .nodeOf "StructDeclaration" [("name", .text name), ("fields", .array (fields.map Field.toJson))]
  | .fnDecl name parameters body =>
    .nodeOf "FunctionDeclaration" [("name", .text name),
      ("parameters", .array (parameters.map .text)), ("body", .array (Stmt.listToJson body))]
  | .ret value => .node "Return" value.toJson
  | .ifThen test consequent =>
    .nodeOf "If" [("test", test.toJson), ("consequent", .array (Stmt.listToJson consequent))]
  | .whileDo test body =>
    .nodeOf "While" [("test", test.toJson), ("body", .array (Stmt.listToJson body))]
  | .varDecl name constant value =>
    .nodeOf "VariableDeclaration" [("name", .text name), ("is_constant", .bool constant),
      ("value", value.toJson)]
  | .expr value => .node "Expression" value.toJson

def Stmt.listToJson : List Stmt → List Json
  | [] => []
  | s :: ss => s.toJson :: Stmt.listToJson ss

end

def Program.toJson (p : Program) : Json :=
  .object [("body", .array (Stmt.listToJson p.body))]

namespace Json

mutual

/-- How many levels a value has. -/
def levels : Json → Nat
  | array items => levelsOfItems items + 1
  | object entries => levelsOfEntries entries + 1
  | _ => 1

def levelsOfItems : List Json → Nat
  | [] => 0
  | x :: xs => max x.levels (levelsOfItems xs)

def levelsOfEntries : List (String × Json) → Nat
  | [] => 0
  | (_, v) :: es => max v.levels (levelsOfEntries es)

end

def text? : Json → Option String
  | text s => some s
  | _ => none

def bool? : Json → Option Bool
  | bool b => some b
  | _ => none

def float? : Json → Option Float
  | real x => some x
  | integer n =>
    some (if n < 0 then -Decimal.nearest n.natAbs 0 else Decimal.nearest n.natAbs 0)
  | _ => none

def items? : Json → Option (List Json)
  | array items => some items
  | _ => none

def node? : Json → Option (String × Json)
  | object [entry] => some entry
  | _ => none

/-- The part of a name. -/
def part? (parts : List (String × Json)) (name : String) : Option Json :=
  parts.lookup name

def parts? : Json → Option (List (String × Json))
  | object entries => some entries
  | _ => none

/-- The named parts of a record, which may also be an array of them in order. -/
def record? (names : List String) : Json → Option (List (String × Json))
  | object entries => some entries
  | array items => if items.length = names.length then some (names.zip items) else none
  | _ => none

/-- One of some names, as a text or as a node with nothing in it. -/
def choice? {α : Type} (name : α → String) (all : List α) : Json → Option α
  | text s => all.find? fun a => name a == s
  | object [(s, null)] => all.find? fun a => name a == s
  | _ => none

end Json

def Field.ofJson? (j : Json) : Option Field := do
  let parts ← j.record? ["name", "type_name"]
  let name ← (← Json.part? parts "name").text?
  let typeName ← (← Json.part? parts "type_name").text?
  return ⟨name, typeName⟩

/-- The expression that some JSON with at most `n` levels describes. -/
def Expr.ofJsonWithin? : Nat → Json → Option Expr
  | 0, _ => none
  | n + 1, j => do
    let (kind, content) ← j.node?
    let expr (parts : List (String × Json)) (name : String) : Option Expr := do
      Expr.ofJsonWithin? n (← Json.part? parts name)
    let exprs (items : Json) : Option (List Expr) := do
      (← items.items?).mapM (Expr.ofJsonWithin? n)
    let property (item : Json) : Option Property := do
      let parts ← item.record? ["key", "value"]
      let key ← (← Json.part? parts "key").text?
      match Json.part? parts "value" with
      | none | some .null => return .shorthand key
      | some value => return .valued key (← Expr.ofJsonWithin? n value)
    match kind with
    | "NumericLiteral" => return .number (← content.float?)
    | "StringLiteral" => return .text (← content.text?)
    | "ArrayLiteral" => return .array (← exprs content)
    | "ObjectLiteral" => return .object (← (← content.items?).mapM property)
    | "Identifier" => return .identifier (← content.text?)
    | "VariableAssignment" =>
      let parts ← content.parts?
      return .assign (← (← Json.part? parts "name").text?) (← expr parts "value")
    | "FunctionCall" =>
      let parts ← content.parts?
      return .call (← expr parts "callee") (← exprs (← Json.part? parts "arguments"))
    | "ObjectMember" =>
      let parts ← content.parts?
      let object ← expr parts "object"
      let member ← expr parts "member"
      let computed ← (← Json.part? parts "computed").bool?
      match Json.part? parts "assignment" with
      | none | some .null => return .member object member computed none
      | some value => return .member object member computed (some (← Expr.ofJsonWithin? n value))
    | "BooleanExpression" =>
      let parts ← content.parts?
      let operator ← (← Json.part? parts "operator").choice? BooleanOp.name BooleanOp.all
      return .boolean (← expr parts "left") operator (← expr parts "right")
    | "BinaryExpression" =>
      let parts ← content.parts?
      let operator ← (← Json.part? parts "operator").choice? BinaryOp.name BinaryOp.all
      return .binary (← expr parts "left") operator (← expr parts "right")
    | "LogicalExpression" =>
      let parts ← content.parts?
      let operator ← (← Json.part? parts "operator").choice? LogicalOp.name LogicalOp.all
      let equals ← (← Json.part? parts "equals").bool?
      return .logical (← expr parts "left") operator equals (← expr parts "right")
    | "NotExpression" => return .not (← Expr.ofJsonWithin? n content)
    | _ => none

def Expr.ofJson? (j : Json) : Option Expr :=
  Expr.ofJsonWithin? j.levels j

def Stmt.ofJsonWithin? : Nat → Json → Option Stmt
  | 0, _ => none
  | n + 1, j => do
    let (kind, content) ← j.node?
    let block (parts : List (String × Json)) (name : String) : Option (List Stmt) := do
      (← (← Json.part? parts name).items?).mapM (Stmt.ofJsonWithin? n)
    match kind with
    | "StructDeclaration" =>
      let parts ← content.parts?
      let name ← (← Json.part? parts "name").text?
      let fields ← (← (← Json.part? parts "fields").items?).mapM Field.ofJson?
      return .structDecl name fields
    | "FunctionDeclaration" =>
      let parts ← content.parts?
      let name ← (← Json.part? parts "name").text?
      let parameters ← (← (← Json.part? parts "parameters").items?).mapM Json.text?
      return .fnDecl name parameters (← block parts "body")
    | "Return" => return .ret (← Expr.ofJson? content)
    | "If" =>
      let parts ← content.parts?
      let test ← Expr.ofJson? (← Json.part? parts "test")
      return .ifThen test (← block parts "consequent")
    | "While" =>
      let parts ← content.parts?
      let test ← Expr.ofJson? (← Json.part? parts "test")
      return .whileDo test (← block parts "body")
    | "VariableDeclaration" =>
      let parts ← content.parts?
      let name ← (← Json.part? parts "name").text?
      let constant ← (← Json.part? parts "is_constant").bool?
      return .varDecl name constant (← Expr.ofJson? (← Json.part? parts "value"))
    | "Expression" => return .expr (← Expr.ofJson? content)
    | _ => none

def Program.ofJson? (j : Json) : Option Program := do
  let parts ← j.record? ["body"]
  let items ← (← Json.part? parts "body").items?
  return ⟨← items.mapM (Stmt.ofJsonWithin? j.levels)⟩

end Scriptlet
