namespace Scriptlet

inductive BinaryOp where
  | add
  | sub
  | mul
  | div
  | mod
  deriving DecidableEq, Repr

namespace BinaryOp

def all : List BinaryOp :=
  [add, sub, mul, div, mod]

def symbol : BinaryOp → String
  | add => "+"
  | sub => "-"
  | mul => "*"
  | div => "/"
  | mod => "%"

def ofSymbol? (s : String) : Option BinaryOp :=
  all.find? fun op => op.symbol == s

def name : BinaryOp → String
  | add => "Add"
  | sub => "Sub"
  | mul => "Mul"
  | div => "Div"
  | mod => "Mod"

def isAdditive : BinaryOp → Bool
  | add | sub => true
  | mul | div | mod => false

def isMultiplicative (op : BinaryOp) : Bool :=
  !op.isAdditive

end BinaryOp

/-- Operators on truth values, written doubled. -/
inductive BooleanOp where
  | and
  | or
  deriving DecidableEq, Repr

namespace BooleanOp

def all : List BooleanOp :=
  [and, or]

def name : BooleanOp → String
  | and => "And"
  | or => "Or"

end BooleanOp

/-- Comparisons. An expression adds a flag that admits equality to `less` and `greater`. -/
inductive LogicalOp where
  | less
  | greater
  | equal
  | notEqual
  deriving DecidableEq, Repr

namespace LogicalOp

def all : List LogicalOp :=
  [less, greater, equal, notEqual]

def name : LogicalOp → String
  | less => "Less"
  | greater => "Greater"
  | equal => "Equal"
  | notEqual => "NotEqual"

end LogicalOp

mutual

inductive Expr where
  | number (value : Float)
  | text (value : String)
  | array (elements : List Expr)
  | object (properties : List Property)
  | identifier (name : String)
  | assign (name : String) (value : Expr)
  | call (callee : Expr) (arguments : List Expr)
  /-- A member read, or a write when `assignment` is there. A member that is not computed is an
  identifier and stands for its own name. -/
  | member (object member : Expr) (computed : Bool) (assignment : Option Expr)
  | boolean (left : Expr) (operator : BooleanOp) (right : Expr)
  | binary (left : Expr) (operator : BinaryOp) (right : Expr)
  | logical (left : Expr) (operator : LogicalOp) (equals : Bool) (right : Expr)
  | not (operand : Expr)

inductive Property where
  /-- A key that takes the value of the variable of the same name. -/
  | shorthand (key : String)
  | valued (key : String) (value : Expr)

end

namespace Expr

def kindName : Expr → String
  | number _ => "NumericLiteral"
  | text _ => "StringLiteral"
  | array _ => "ArrayLiteral"
  | object _ => "ObjectLiteral"
  | identifier _ => "Identifier"
  | assign .. => "VariableAssignment"
  | call .. => "FunctionCall"
  | member .. => "ObjectMember"
  | boolean .. => "BooleanExpression"
  | binary .. => "BinaryExpression"
  | logical .. => "LogicalExpression"
  | not _ => "NotExpression"

/-- What stands for an expression that is left out. It is the variable `null`, not a literal. -/
def omitted : Expr :=
  identifier "null"

end Expr

/-- A field of a struct: its name and the kind or struct that its values have. -/
structure Field where
  name : String
  typeName : String
  deriving DecidableEq, Repr

inductive Stmt where
  | structDecl (name : String) (fields : List Field)
  | fnDecl (name : String) (parameters : List String) (body : List Stmt)
  | ret (value : Expr)
  | ifThen (test : Expr) (consequent : List Stmt)
  | whileDo (test : Expr) (body : List Stmt)
  | varDecl (name : String) (constant : Bool) (value : Expr)
  | expr (value : Expr)

namespace Stmt

def kindName : Stmt → String
  | structDecl .. => "StructDeclaration"
  | fnDecl .. => "FunctionDeclaration"
  | ret _ => "ReturnStatement"
  | ifThen .. => "IfStatement"
  | whileDo .. => "WhileLoop"
  | varDecl .. => "VariableDeclaration"
  | expr e => e.kindName

def isReturn : Stmt → Bool
  | ret _ => true
  | _ => false

end Stmt

/-- A program is run one statement at a time. -/
structure Program where
  body : List Stmt

end Scriptlet
