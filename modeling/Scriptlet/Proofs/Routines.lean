import Scriptlet.Program.Parse

namespace Scriptlet.Proofs.Routines

open Scriptlet.Program Scriptlet.Text

/-- Where a reading stands: the index of the token that it looks at, and the levels of the tree that
it has counted. -/
structure Place where
  index : Nat
  depth : Nat

/-- The place behind the token. -/
abbrev Place.next (p : Place) : Place :=
  { p with index := p.index + 1 }

/-- The same token at another level. -/
abbrev Place.atDepth (p : Place) (n : Nat) : Place :=
  { p with depth := n }

/-- What reading is divided into, each with the type of what it gives. A loop is a routine that calls
itself; the tail of a chain carries what is read of the chain so far. -/
inductive Routine : Type → Type where
  | program : Routine (List Stmt)
  | topLevel : Routine (List Stmt)
  | statement : Routine (List Stmt)
  | semicolons : Routine Unit
  | structDeclaration : Routine Stmt
  | fields : Routine (List Field)
  | declarations (constant : Bool) : Routine (List Stmt)
  | functionDeclaration : Routine Stmt
  | parameters : Routine (List String)
  | returnStatement : Routine Stmt
  | ifStatement : Routine Stmt
  | whileStatement : Routine Stmt
  | condition : Routine Expr
  | block : Routine (List Stmt)
  | blockBody : Routine (List Stmt)
  | statements : Routine (List Stmt)
  | expression : Routine Expr
  | negation : Routine Expr
  | logical : Routine Expr
  | boolean : Routine Expr
  | assignment : Routine Expr
  | arrayLiteral : Routine Expr
  | elements : Routine (List Expr)
  | objectLiteral : Routine Expr
  | properties : Routine (List Property)
  /-- Sums, or else products. -/
  | leftFold (sum : Bool) : Routine Expr
  | foldTail (sum : Bool) (left : Expr) : Routine Expr
  | callChain : Routine Expr
  | callTail (callee : Expr) : Routine Expr
  | arguments : Routine (List Expr)
  | moreArguments : Routine (List Expr)
  | memberChain : Routine Expr
  | memberTail (object : Expr) : Routine Expr
  | primary : Routine Expr

/-- Whether a routine is the tail of a chain, which counts a level for each link and leaves it to the
chain to take them back. -/
def Routine.isTail {α : Type} : Routine α → Bool
  | .foldTail .. | .callTail _ | .memberTail _ => true
  | _ => false

/-- Whether a routine reads one statement of the source. -/
def Routine.isStatement {α : Type} : Routine α → Bool
  | .statement => true
  | _ => false

/-- Acts one after another, up to a result. Nothing here keeps the index inside of the list or the counter of
levels from going below zero, and nothing bounds the calls. -/
inductive Code (α : Type) : Type 1 where
  | done (result : Except ParseError α)
  /-- Looks at the token at the index, which must be there. -/
  | look (next : Token → Code α)
  /-- Looks at the token behind it, if there is one. -/
  | lookNext (next : Option Token → Code α)
  /-- Moves the index by one. -/
  | advance (next : Code α)
  /-- Looks at the counter. -/
  | level (next : Nat → Code α)
  /-- Sets the counter. -/
  | setLevel (n : Nat) (next : Code α)
  /-- Takes one off the counter, which must not be zero. -/
  | lower (next : Code α)
  /-- Calls a routine and goes on with its result, be it a value or an error. -/
  | call {β : Type} (routine : Routine β) (next : Except ParseError β → Code α)

namespace Code

/-- Goes on with a value, and ends at an error. -/
def bind {α β : Type} : Code α → (α → Code β) → Code β
  | .done (.ok x), f => f x
  | .done (.error e), _ => .done (.error e)
  | .look next, f => .look fun t => (next t).bind f
  | .lookNext next, f => .lookNext fun t => (next t).bind f
  | .advance next, f => .advance (next.bind f)
  | .level next, f => .level fun n => (next n).bind f
  | .setLevel n next, f => .setLevel n (next.bind f)
  | .lower next, f => .lower (next.bind f)
  | .call r next, f => .call r fun x => (next x).bind f

instance : Monad Code where
  pure x := .done (.ok x)
  bind := Code.bind

variable {α : Type}

def failAt (position : Position) (cause : ParseCause) : Code α :=
  .done (.error ⟨position, cause⟩)

def peek : Code Token :=
  .look fun t => pure t

def failHere (cause : ParseCause) : Code α := do
  failAt (← peek).position cause

def sees (kind : Token.Kind) : Code Bool := do
  return (← peek).kind == kind

def seesNext (kind : Token.Kind) : Code Bool :=
  .lookNext fun t => pure (t.any fun t => t.kind == kind)

def atEnd : Code Bool :=
  sees .eof

def eat : Code Token := do
  let t ← peek
  if t.kind = .eof then failAt t.position .unexpectedEnd
  else .advance (pure t)

def expect (kind : Token.Kind) : Code Token := do
  let t ← eat
  if t.kind = kind then return t else failAt t.position (.expected kind t)

def skip (kind : Token.Kind) : Code Bool := do
  if ← sees kind then
    let _ ← eat
    return true
  else return false

/-- Calls a routine and ends at its error. -/
def ask (r : Routine α) : Code α :=
  .call r .done

def descend : Code Unit :=
  .level fun n =>
    if maxNesting ≤ n then failHere .nestedTooDeep else .setLevel (n + 1) (pure ())

/-- Calls a routine one level deeper. The level is taken back after an error too. -/
def nested (r : Routine α) : Code α := do
  descend
  .call r fun x => .lower (.done x)

/-- Calls the tail of a chain and comes back to the level before it. After an error it does not. -/
def leveled (r : Routine α) : Code α :=
  .level fun outer => do
    let x ← ask r
    .setLevel outer (pure x)

def assignTo (target value : Expr) (position : Position) : Code Expr :=
  match target with
  | .identifier name => return .assign name value
  | .member object member computed none => return .member object member computed (some value)
  | other => failAt position (.notAssignable other.kindName)

/-- The token behind is looked at only if the one at the index is a sign of equality. -/
def seesAssignment : Code Bool := do
  if ← sees .equals then return !(← seesNext .equals) else return false

def dotMember : Code Expr := do
  let position := (← peek).position
  match ← ask .primary with
  | .identifier name => return .identifier name
  | _ => failAt position .memberNotIdentifier

def seesOperator (accepted : BinaryOp → Bool) : Code (Option BinaryOp) := do
  let t ← peek
  if t.kind = .binaryOperator then return (BinaryOp.ofSymbol? t.text).filter accepted
  else return none

/-- Whether a sign of a kind is under the cursor with a sign of equality behind it. -/
def seesPair (kind : Token.Kind) : Code Bool := do
  if ← sees kind then seesNext .equals else return false

def comparison : Code (Option (LogicalOp × Bool)) := do
  if ← sees .logicalOperator then
    let t ← eat
    let equals ← skip .equals
    return some (if t.text = "<" then .less else .greater, equals)
  else if ← seesPair .equals then
    let _ ← eat
    let _ ← eat
    return some (.equal, true)
  else if ← seesPair .not then
    let _ ← eat
    let _ ← eat
    return some (.notEqual, true)
  else return none

def initializer : Code Expr := do
  if ← skip .equals then ask .expression else return .omitted

end Code

/-- The operators of sums, or else of products. -/
def accepts : Bool → BinaryOp → Bool
  | true => BinaryOp.isAdditive
  | false => BinaryOp.isMultiplicative

/-- What sums are made of, or else what products are made of. -/
def operand : Bool → Routine Expr
  | true => .leftFold false
  | false => .callChain

section Acts

open Code

/-- What a routine does. -/
@[simp]
def Routine.code : {α : Type} → Routine α → Code α
  | _, .program => ask .topLevel
  | _, .topLevel => do
    let t ← peek
    if t.kind = .eof then return []
    else if t.kind = .closeBrace then failAt t.position (.unexpectedToken t)
    else
      let first ← ask .statement
      return first ++ (← ask .topLevel)
  | _, .statement => do
    ask .semicolons
    match (← peek).kind with
    | .closeBrace | .eof => return []
    | .classWord => failHere .classes
    | .forWord => failHere .forLoops
    | .structWord => return [← ask .structDeclaration]
    | .letWord =>
      let _ ← eat
      ask (.declarations false)
    | .constWord =>
      let _ ← eat
      ask (.declarations true)
    | .whileWord => return [← ask .whileStatement]
    | .fnWord => return [← ask .functionDeclaration]
    | .returnWord => return [← ask .returnStatement]
    | .ifWord => return [← ask .ifStatement]
    | _ => return [.expr (← ask .expression)]
  | _, .semicolons => do
    if ← skip .semicolon then ask .semicolons else return ()
  | _, .structDeclaration => do
    let _ ← expect .structWord
    let name ← expect .identifier
    let _ ← expect .openBrace
    let declared ← ask .fields
    if declared.isEmpty then failHere (.structWithoutFields name.text)
    else
      let _ ← expect .closeBrace
      return .structDecl name.text declared
  | _, .fields => do
    if (← sees .closeBrace) || (← atEnd) then return []
    else
      let name ← expect .identifier
      let _ ← expect .colon
      let typeName ← expect .identifier
      let _ ← skip .comma
      return ⟨name.text, typeName.text⟩ :: (← ask .fields)
  | _, .declarations constant => do
    let name ← expect .identifier
    let value ← initializer
    let declared := Stmt.varDecl name.text constant value
    if ← skip .comma then return declared :: (← ask (.declarations constant))
    else return [declared]
  | _, .functionDeclaration => do
    let _ ← expect .fnWord
    let name ← expect .identifier
    let _ ← expect .openParen
    let names ← ask .parameters
    let _ ← expect .closeParen
    return .fnDecl name.text names (← ask .block)
  | _, .parameters => do
    if (← sees .closeParen) || (← atEnd) then return []
    else
      let name ← expect .identifier
      let _ ← skip .comma
      return name.text :: (← ask .parameters)
  | _, .returnStatement => do
    let _ ← expect .returnWord
    match (← peek).kind with
    | .closeBrace | .semicolon | .eof => return .ret .omitted
    | _ => return .ret (← ask .expression)
  | _, .ifStatement => do
    let _ ← expect .ifWord
    let test ← ask .condition
    return .ifThen test (← ask .block)
  | _, .whileStatement => do
    let _ ← expect .whileWord
    let test ← ask .condition
    return .whileDo test (← ask .block)
  | _, .condition => do
    let _ ← expect .openParen
    let test ← ask .expression
    let _ ← expect .closeParen
    return test
  | _, .block => nested .blockBody
  | _, .blockBody => do
    let _ ← expect .openBrace
    let stmts ← ask .statements
    let _ ← expect .closeBrace
    return stmts
  | _, .statements => do
    if (← sees .closeBrace) || (← atEnd) then return []
    else
      let first ← ask .statement
      return first ++ (← ask .statements)
  | _, .expression => nested .negation
  | _, .negation => do
    if ← skip .not then return .not (← ask .expression)
    else ask .logical
  | _, .logical => do
    let left ← ask .boolean
    match ← comparison with
    | some (operator, equals) => return .logical left operator equals (← ask .expression)
    | none => return left
  | _, .boolean => do
    let left ← ask .assignment
    if ← sees .booleanOperator then
      let first ← eat
      let second ← peek
      if second.kind ≠ .booleanOperator ∨ second.text ≠ first.text then
        failAt second.position .operatorNotDoubled
      else
        let _ ← eat
        let right ← ask .expression
        return .boolean left (if first.text = "&" then .and else .or) right
    else return left
  | _, .assignment => do
    let target ← ask .arrayLiteral
    if ← seesAssignment then
      let equals ← eat
      let value ← nested .assignment
      assignTo target value equals.position
    else return target
  | _, .arrayLiteral => do
    if ← skip .openBracket then
      let items ← ask .elements
      if ← skip .closeBracket then return .array items
      else failHere .unclosedArray
    else ask .objectLiteral
  | _, .elements => do
    if (← atEnd) || (← sees .closeBracket) then return []
    else
      let e ← ask .expression
      if ← sees .comma then
        let comma ← eat
        if ← sees .closeBracket then failAt comma.position .trailingComma
        else return e :: (← ask .elements)
      else return [e]
  | _, .objectLiteral => do
    if ← skip .openBrace then
      let entries ← ask .properties
      if ← skip .closeBrace then return .object entries
      else failHere .unclosedObject
    else ask (.leftFold true)
  | _, .properties => do
    if (← atEnd) || (← sees .closeBrace) then return []
    else
      let key ← expect .identifier
      if ← skip .comma then return .shorthand key.text :: (← ask .properties)
      else if ← sees .closeBrace then return .shorthand key.text :: (← ask .properties)
      else
        let _ ← expect .colon
        let value ← ask .expression
        if !(← sees .closeBrace) then
          let _ ← expect .comma
        return .valued key.text value :: (← ask .properties)
  | _, .leftFold sum => do
    let first ← ask (operand sum)
    leveled (.foldTail sum first)
  | _, .foldTail sum left => do
    match ← seesOperator (accepts sum) with
    | some operator =>
      descend
      let _ ← eat
      let right ← ask (operand sum)
      ask (.foldTail sum (.binary left operator right))
    | none => return left
  | _, .callChain => do
    let first ← ask .memberChain
    leveled (.callTail first)
  | _, .callTail callee => do
    if ← sees .openParen then
      descend
      let args ← ask .arguments
      ask (.callTail (.call callee args))
    else return callee
  | _, .arguments => do
    let _ ← expect .openParen
    if ← sees .closeParen then
      let _ ← expect .closeParen
      return []
    else
      let first ← ask .expression
      let others ← ask .moreArguments
      let _ ← expect .closeParen
      return first :: others
  | _, .moreArguments => do
    if ← skip .comma then
      let e ← ask .expression
      return e :: (← ask .moreArguments)
    else return []
  | _, .memberChain => do
    let first ← ask .primary
    let object ← leveled (.memberTail first)
    if ← seesAssignment then
      let equals ← eat
      let value ← ask .expression
      assignTo object value equals.position
    else return object
  | _, .memberTail object => do
    match (← peek).kind with
    | .dot =>
      descend
      let _ ← eat
      let name ← dotMember
      ask (.memberTail (.member object name false none))
    | .openBracket =>
      descend
      let _ ← eat
      let key ← ask .expression
      let _ ← expect .closeBracket
      ask (.memberTail (.member object key true none))
    | _ => return object
  | _, .primary => do
    let t ← peek
    match t.kind with
    | .identifier =>
      let _ ← eat
      return .identifier t.text
    | .number =>
      let _ ← eat
      match Decimal.read? t.text.toList with
      | some x => return .number x
      | none => failAt t.position (.malformedNumber t.text)
    | .string =>
      let _ ← eat
      return .text t.text
    | .openParen =>
      let _ ← eat
      let e ← ask .expression
      let _ ← expect .closeParen
      return e
    | _ => failAt t.position (.unexpectedToken t)

end Acts

/-- The calls that are under way, the innermost first: each with the place where it was made and what
its caller goes on with. -/
inductive Calls : Type → Type 1 where
  | outermost : Calls (List Stmt)
  | within {α β : Type} (routine : Routine β) (start : Place) (next : Except ParseError β → Code α)
      (outer : Calls α) : Calls β

/-- All that is under way between two acts. -/
structure Moment where
  {value : Type}
  place : Place
  code : Code value
  calls : Calls value

/-- The next act on a list of tokens. There is none at the end of the reading, nor where it is stuck: where it
would look at no token or count below zero. -/
def step (ts : List Token) : Moment → Option Moment
  | ⟨_, .done _, .outermost⟩ => none
  | ⟨p, .done x, .within _ _ next outer⟩ => some ⟨p, next x, outer⟩
  | ⟨p, .look next, calls⟩ => ts[p.index]?.map fun t => ⟨p, next t, calls⟩
  | ⟨p, .lookNext next, calls⟩ => some ⟨p, next ts[p.index + 1]?, calls⟩
  | ⟨p, .advance next, calls⟩ => some ⟨p.next, next, calls⟩
  | ⟨p, .level next, calls⟩ => some ⟨p, next p.depth, calls⟩
  | ⟨p, .setLevel n next, calls⟩ => some ⟨p.atDepth n, next, calls⟩
  | ⟨p, .lower next, calls⟩ =>
    if p.depth = 0 then none else some ⟨p.atDepth (p.depth - 1), next, calls⟩
  | ⟨p, .call r next, calls⟩ => some ⟨p, r.code, .within r p next calls⟩

/-- The result of a reading that has come to its end. -/
def Moment.answer? : Moment → Option (Except ParseError (List Stmt))
  | ⟨_, .done x, .outermost⟩ => some x
  | _ => none

/-- The moment after so many acts; the last one stays. -/
def after (ts : List Token) : Nat → Moment → Moment
  | 0, m => m
  | n + 1, m => after ts n ((step ts m).getD m)

/-- A list with an end at its back: a missing one is put where the last token begins. -/
def completed (tokens : List Token) : List Token :=
  if tokens.getLast?.any fun t => t.kind == .eof then tokens
  else tokens ++ [Token.eof ((tokens.getLast?.map Token.position).getD .nowhere)]

/-- The moments of reading a program from any tokens. -/
def moment (tokens : List Token) (n : Nat) : Moment :=
  after (completed tokens) n ⟨⟨0, 0⟩, .ask .program, .outermost⟩

end Scriptlet.Proofs.Routines
