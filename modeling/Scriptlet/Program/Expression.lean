import Scriptlet.Decimal.Read
import Scriptlet.Program
import Scriptlet.Program.Cursor

namespace Scriptlet.Program.Parser

open Scriptlet.Text

/-- More levels than a tree can have. A chain is bounded by them and a list by the tokens that are
left, and neither uses up its bound. -/
def levels : Nat := maxNesting + 1

/-- Turns a target and a value into a write to a variable or to a member. -/
def assignTo (target value : Expr) (position : Position) : Parser Expr :=
  match target with
  | .identifier name => return .assign name value
  | .member object member computed none => return .member object member computed (some value)
  | other => failAt position (.notAssignable other.kindName)

/-- Whether an assignment follows, and not a comparison. -/
def seesAssignment : Parser Bool := do
  return (← sees .equals) && !(← seesNext .equals)

def primary (expr : Parser Expr) : Parser Expr := do
  let t ← peek
  match t.kind with
  | .identifier =>
    let _ ← eat
    return .identifier t.text
  | .number =>
    let _ ← eat
    match Decimal.read? t.text.toList with
    | some x => return .number x
    | none => failAt t.position (.malformedNumber t.text)
  | .string =>
    let _ ← eat
    return .text t.text
  | .openParen =>
    let _ ← eat
    let e ← expr
    let _ ← expect .closeParen
    return e
  | _ => failAt t.position (.unexpectedToken t)

def dotMember (expr : Parser Expr) : Parser Expr := do
  let position := (← peek).position
  match ← primary expr with
  | .identifier name => return .identifier name
  | _ => failAt position .memberNotIdentifier

def memberTail (expr : Parser Expr) : Nat → Expr → Parser Expr
  | 0, _ => failHere .nestedTooDeep
  | n + 1, object => do
    match (← peek).kind with
    | .dot =>
      descend
      let _ ← eat
      let name ← dotMember expr
      memberTail expr n (.member object name false none)
    | .openBracket =>
      descend
      let _ ← eat
      let key ← expr
      let _ ← expect .closeBracket
      memberTail expr n (.member object key true none)
    | _ => return object

/-- A chain of members, which an assignment may follow. -/
def memberChain (expr : Parser Expr) : Parser Expr := do
  let first ← primary expr
  let object ← leveled (memberTail expr levels first)
  if ← seesAssignment then
    let equals ← eat
    let value ← expr
    assignTo object value equals.position
  else return object

def moreArguments (expr : Parser Expr) : Nat → Parser (List Expr)
  | 0 => return []
  | n + 1 => do
    if ← skip .comma then
      let e ← expr
      return e :: (← moreArguments expr n)
    else return []

def arguments (expr : Parser Expr) : Parser (List Expr) := do
  let _ ← expect .openParen
  if ← sees .closeParen then
    let _ ← expect .closeParen
    return []
  else
    let first ← expr
    let others ← moreArguments expr (← remaining)
    let _ ← expect .closeParen
    return first :: others

def callTail (expr : Parser Expr) : Nat → Expr → Parser Expr
  | 0, _ => failHere .nestedTooDeep
  | n + 1, callee => do
    if ← sees .openParen then
      descend
      let args ← arguments expr
      callTail expr n (.call callee args)
    else return callee

def callChain (expr : Parser Expr) : Parser Expr := do
  let first ← memberChain expr
  leveled (callTail expr levels first)

def seesOperator (accepted : BinaryOp → Bool) : Parser (Option BinaryOp) := do
  let t ← peek
  if t.kind = .binaryOperator then return (BinaryOp.ofSymbol? t.text).filter accepted
  else return none

def foldTail (accepted : BinaryOp → Bool) (operand : Parser Expr) : Nat → Expr → Parser Expr
  | 0, _ => failHere .nestedTooDeep
  | n + 1, left => do
    match ← seesOperator accepted with
    | some operator =>
      descend
      let _ ← eat
      let right ← operand
      foldTail accepted operand n (.binary left operator right)
    | none => return left

def leftFold (accepted : BinaryOp → Bool) (operand : Parser Expr) : Parser Expr := do
  let first ← operand
  leveled (foldTail accepted operand levels first)

def multiplicative (expr : Parser Expr) : Parser Expr :=
  leftFold BinaryOp.isMultiplicative (callChain expr)

def additive (expr : Parser Expr) : Parser Expr :=
  leftFold BinaryOp.isAdditive (multiplicative expr)

/-- The entries of an object literal up to its brace; the last may have a comma. -/
def properties (expr : Parser Expr) : Nat → Parser (List Property)
  | 0 => return []
  | n + 1 => do
    if (← atEnd) || (← sees .closeBrace) then return []
    else
      let key ← expect .identifier
      if ← skip .comma then return .shorthand key.text :: (← properties expr n)
      else if ← sees .closeBrace then return .shorthand key.text :: (← properties expr n)
      else
        let _ ← expect .colon
        let value ← expr
        if !(← sees .closeBrace) then
          let _ ← expect .comma
        return .valued key.text value :: (← properties expr n)

def objectLiteral (expr : Parser Expr) : Parser Expr := do
  if ← skip .openBrace then
    let entries ← properties expr (← remaining)
    if ← skip .closeBrace then return .object entries
    else failHere .unclosedObject
  else additive expr

/-- The elements of an array literal up to its bracket; the last has no comma. -/
def elements (expr : Parser Expr) : Nat → Parser (List Expr)
  | 0 => return []
  | n + 1 => do
    if (← atEnd) || (← sees .closeBracket) then return []
    else
      let e ← expr
      if ← sees .comma then
        let comma ← eat
        if ← sees .closeBracket then failAt comma.position .trailingComma
        else return e :: (← elements expr n)
      else return [e]

def arrayLiteral (expr : Parser Expr) : Parser Expr := do
  if ← skip .openBracket then
    let items ← elements expr (← remaining)
    if ← skip .closeBracket then return .array items
    else failHere .unclosedArray
  else objectLiteral expr

def assignment (expr : Parser Expr) : Nat → Parser Expr
  | 0 => failHere .nestedTooDeep
  | n + 1 => do
    let target ← arrayLiteral expr
    if ← seesAssignment then
      let equals ← eat
      let value ← nested (assignment expr n)
      assignTo target value equals.position
    else return target

def boolean (expr : Parser Expr) : Parser Expr := do
  let left ← assignment expr levels
  if ← sees .booleanOperator then
    let first ← eat
    let second ← peek
    if second.kind ≠ .booleanOperator ∨ second.text ≠ first.text then
      failAt second.position .operatorNotDoubled
    else
      let _ ← eat
      let right ← expr
      return .boolean left (if first.text = "&" then .and else .or) right
  else return left

/-- The comparison under the cursor, taken, with its flag for equality. -/
def comparison : Parser (Option (LogicalOp × Bool)) := do
  if ← sees .logicalOperator then
    let t ← eat
    let equals ← skip .equals
    return some (if t.text = "<" then .less else .greater, equals)
  else if (← sees .equals) && (← seesNext .equals) then
    let _ ← eat
    let _ ← eat
    return some (.equal, true)
  else if (← sees .not) && (← seesNext .equals) then
    let _ ← eat
    let _ ← eat
    return some (.notEqual, true)
  else return none

def logical (expr : Parser Expr) : Parser Expr := do
  let left ← boolean expr
  match ← comparison with
  | some (operator, equals) => return .logical left operator equals (← expr)
  | none => return left

def negation (expr : Parser Expr) : Parser Expr := do
  if ← skip .not then return .not (← expr)
  else logical expr

/-- Expressions that may grow the tree by less than `n` levels. From the loosest to the tightest the
layers are: negation, comparison, operators on truth values, assignment, array literals, object
literals, sums, products, calls, members, and single tokens or parentheses. A comparison, an
operator on truth values and an assignment take the whole rest of the expression as their right
operand; sums and products fold to the left. Each layer is given the reader of a full expression one
level deeper. -/
def expressionWithin : Nat → Parser Expr
  | 0 => failHere .nestedTooDeep
  | n + 1 => nested (negation (expressionWithin n))

def expression : Parser Expr :=
  expressionWithin levels

end Scriptlet.Program.Parser
