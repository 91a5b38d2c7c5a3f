import Scriptlet.Token

namespace Scriptlet.Program

open Scriptlet.Text

inductive ParseCause where
  | unexpectedToken (token : Token)
  | unexpectedEnd
  | expected (kind : Token.Kind) (got : Token)
  | classes
  | forLoops
  | structWithoutFields (name : String)
  | nestedTooDeep
  | operatorNotDoubled
  | trailingComma
  | unclosedArray
  | unclosedObject
  | memberNotIdentifier
  | malformedNumber (text : String)
  | notAssignable (kind : String)
  deriving DecidableEq, Repr

structure ParseError where
  position : Position
  cause : ParseCause
  deriving DecidableEq, Repr

/-- How deep a tree may grow. -/
def maxNesting : Nat := 128

def ParseCause.message : ParseCause → String
  | .unexpectedToken token => s!"Unexpected token: {token.describe}"
  | .unexpectedEnd => "Unexpected end of input (attempt to consume EOF)"
  | .expected kind got => s!"Expected {kind.name}, got {got.describe}"
  | .classes => "Classes are not yet supported"
  | .forLoops => "For loops are not yet supported"
  | .structWithoutFields name => s!"Expected field in Struct {name}"
  | .nestedTooDeep => s!"Expression nested deeper than {maxNesting} levels"
  | .operatorNotDoubled =>
    "Boolean operators must be doubled (`&&` or `||`, not `&|` or a single `&`)"
  | .trailingComma => "Trailing comma is not permitted in ArrayLiteral"
  | .unclosedArray => "Expected CloseBracket for ArrayLiteral"
  | .unclosedObject => "Expected CloseBrace for ObjectLiteral"
  | .memberNotIdentifier => "Dot operator in member expression requires an identifier"
  | .malformedNumber text => s!"Invalid numeric literal `{text}`"
  | .notAssignable kind => s!"Invalid assignment target: {kind}"

/-- The tokens still to be read, the token of the end behind them, and the depth of the tree at
this point. -/
structure Cursor where
  rest : List Token
  close : Token
  depth : Nat

namespace Cursor

/-- The cursor before the first of some tokens. Only those before the first end count; a list
without an end is closed where its last token begins. -/
def ofTokens (tokens : List Token) : Cursor where
  rest := tokens.takeWhile fun t => t.kind ≠ .eof
  close := (tokens.find? fun t => t.kind == .eof).getD
    (Token.eof ((tokens.getLast?.map Token.position).getD .nowhere))
  depth := 0

def current (c : Cursor) : Token :=
  c.rest.headD c.close

end Cursor

abbrev Parser (α : Type) := StateT Cursor (Except ParseError) α

namespace Parser

def failAt {α : Type} (position : Position) (cause : ParseCause) : Parser α :=
  throw ⟨position, cause⟩

def peek : Parser Token := do
  return (← get).current

def failHere {α : Type} (cause : ParseCause) : Parser α := do
  failAt (← peek).position cause

def remaining : Parser Nat := do
  return (← get).rest.length

def sees (kind : Token.Kind) : Parser Bool := do
  return (← peek).kind == kind

def seesNext (kind : Token.Kind) : Parser Bool := do
  return ((← get).rest.tail.headD (← get).close).kind == kind

def atEnd : Parser Bool :=
  sees .eof

/-- Takes the token under the cursor; the end is never taken. -/
def eat : Parser Token := do
  let c ← get
  match c.rest with
  | [] => failAt c.close.position .unexpectedEnd
  | t :: ts =>
    set { c with rest := ts }
    return t

def expect (kind : Token.Kind) : Parser Token := do
  let t ← eat
  if t.kind = kind then return t else failAt t.position (.expected kind t)

/-- Takes a token of a kind if it is there, and says whether it was. -/
def skip (kind : Token.Kind) : Parser Bool := do
  if ← sees kind then
    let _ ← eat
    return true
  else return false

def descend : Parser Unit := do
  let c ← get
  if maxNesting ≤ c.depth then failHere .nestedTooDeep
  else set { c with depth := c.depth + 1 }

def nested {α : Type} (p : Parser α) : Parser α := do
  descend
  let x ← p
  modify fun c => { c with depth := c.depth - 1 }
  return x

/-- Reads what may grow the tree level by level, and comes back to the level of its start. -/
def leveled {α : Type} (p : Parser α) : Parser α := do
  let outer := (← get).depth
  let x ← p
  modify fun c => { c with depth := outer }
  return x

end Parser

end Scriptlet.Program
