import Scriptlet.Program.Expression

namespace Scriptlet.Program

namespace Parser

/-- The fields of a struct up to its brace; a comma may follow each. -/
def fields : Nat → Parser (List Field)
  | 0 => return []
  | n + 1 => do
    if (← sees .closeBrace) || (← atEnd) then return []
    else
      let name ← expect .identifier
      let _ ← expect .colon
      let typeName ← expect .identifier
      let _ ← skip .comma
      return ⟨name.text, typeName.text⟩ :: (← fields n)

/-- A struct with at least one field. -/
def structDeclaration : Parser Stmt := do
  let _ ← expect .structWord
  let name ← expect .identifier
  let _ ← expect .openBrace
  let declared ← fields (← remaining)
  if declared.isEmpty then failHere (.structWithoutFields name.text)
  else
    let _ ← expect .closeBrace
    return .structDecl name.text declared

def initializer : Parser Expr := do
  if ← skip .equals then expression else return .omitted

/-- One or more declared names, with commas between them. -/
def declarations (constant : Bool) : Nat → Parser (List Stmt)
  | 0 => return []
  | n + 1 => do
    let name ← expect .identifier
    let value ← initializer
    let declared := Stmt.varDecl name.text constant value
    if ← skip .comma then return declared :: (← declarations constant n)
    else return [declared]

def parameters : Nat → Parser (List String)
  | 0 => return []
  | n + 1 => do
    if (← sees .closeParen) || (← atEnd) then return []
    else
      let name ← expect .identifier
      let _ ← skip .comma
      return name.text :: (← parameters n)

def functionDeclaration (block : Parser (List Stmt)) : Parser Stmt := do
  let _ ← expect .fnWord
  let name ← expect .identifier
  let _ ← expect .openParen
  let names ← parameters (← remaining)
  let _ ← expect .closeParen
  return .fnDecl name.text names (← block)

def returnStatement : Parser Stmt := do
  let _ ← expect .returnWord
  match (← peek).kind with
  | .closeBrace | .semicolon | .eof => return .ret .omitted
  | _ => return .ret (← expression)

def condition : Parser Expr := do
  let _ ← expect .openParen
  let test ← expression
  let _ ← expect .closeParen
  return test

def ifStatement (block : Parser (List Stmt)) : Parser Stmt := do
  let _ ← expect .ifWord
  let test ← condition
  return .ifThen test (← block)

def whileStatement (block : Parser (List Stmt)) : Parser Stmt := do
  let _ ← expect .whileWord
  let test ← condition
  return .whileDo test (← block)

def semicolons : Parser Unit :=
  modify fun c => { c with rest := c.rest.dropWhile fun t => t.kind == .semicolon }

/-- One statement of the source, given the reader of a block. It may give several statements in the
tree (`let a, b`) or none (a lone semicolon). -/
def statementWith (block : Parser (List Stmt)) : Parser (List Stmt) := do
  semicolons
  match (← peek).kind with
  | .closeBrace | .eof => return []
  | .classWord => failHere .classes
  | .forWord => failHere .forLoops
  | .structWord => return [← structDeclaration]
  | .letWord =>
    let _ ← eat
    declarations false ((← remaining) + 1)
  | .constWord =>
    let _ ← eat
    declarations true ((← remaining) + 1)
  | .whileWord => return [← whileStatement block]
  | .fnWord => return [← functionDeclaration block]
  | .returnWord => return [← returnStatement]
  | .ifWord => return [← ifStatement block]
  | _ => return [.expr (← expression)]

def statements (statement : Parser (List Stmt)) : Nat → Parser (List Stmt)
  | 0 => return []
  | n + 1 => do
    if (← sees .closeBrace) || (← atEnd) then return []
    else
      let first ← statement
      return first ++ (← statements statement n)

def blockOf (statement : Parser (List Stmt)) : Parser (List Stmt) :=
  nested do
    let _ ← expect .openBrace
    let body ← statements statement (← remaining)
    let _ ← expect .closeBrace
    return body

/-- Statements that may grow the tree by less than `n` levels. -/
def statementWithin : Nat → Parser (List Stmt)
  | 0 => failHere .nestedTooDeep
  | n + 1 => statementWith (blockOf (statementWithin n))

def statement : Parser (List Stmt) :=
  statementWithin levels

/-- Statements up to the end; a brace closes nothing here. -/
def topLevel : Nat → Parser (List Stmt)
  | 0 => return []
  | n + 1 => do
    let t ← peek
    if t.kind = .eof then return []
    else if t.kind = .closeBrace then failAt t.position (.unexpectedToken t)
    else
      let first ← statement
      return first ++ (← topLevel n)

end Parser

def parse (tokens : List Token) : Except ParseError Program :=
  let start := Cursor.ofTokens tokens
  match (Parser.topLevel start.rest.length).run start with
  | .ok (body, _) => .ok ⟨body⟩
  | .error e => .error e

end Scriptlet.Program
