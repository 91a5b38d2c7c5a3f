import Scriptlet.Decimal.Layout
import Scriptlet.Proofs.Height
import Scriptlet.Token.Scan

namespace Scriptlet
open Scriptlet.Text (isCased)

/-- A token without its place. -/
abbrev Spelling := Token.Kind × String

namespace Spelling

def comma : Spelling := (.comma, ",")
def semicolon : Spelling := (.semicolon, ";")
def equals : Spelling := (.equals, "=")
def openParen : Spelling := (.openParen, "(")
def closeParen : Spelling := (.closeParen, ")")
def openBracket : Spelling := (.openBracket, "[")
def closeBracket : Spelling := (.closeBracket, "]")
def openBrace : Spelling := (.openBrace, "\x7b")
def closeBrace : Spelling := (.closeBrace, "\x7d")

/-- The characters that a token has in the source. -/
def lexeme (s : Spelling) : List Char :=
  if s.1 = .string then '"' :: (s.2.toList ++ ['"']) else s.2.toList

/-- Some words, each behind a comma. -/
def continued : List (List Spelling) → List Spelling
  | [] => []
  | w :: ws => comma :: (w ++ continued ws)

/-- Some words with commas between them. -/
def separated : List (List Spelling) → List Spelling
  | [] => []
  | w :: ws => w ++ continued ws

/-- A word in parentheses. -/
def enclosed (w : List Spelling) : List Spelling :=
  openParen :: (w ++ [closeParen])

end Spelling

open Spelling

/-- Numbers, strings and identifiers. -/
def Expr.isLeaf : Expr → Bool
  | .number _ | .text _ | .identifier _ => true
  | _ => false

def BinaryOp.words (op : BinaryOp) : List Spelling :=
  [(.binaryOperator, op.symbol)]

def BooleanOp.words : BooleanOp → List Spelling
  | .and => [(.booleanOperator, "&"), (.booleanOperator, "&")]
  | .or => [(.booleanOperator, "|"), (.booleanOperator, "|")]

def LogicalOp.words : LogicalOp → Bool → List Spelling
  | .less, false => [(.logicalOperator, "<")]
  | .less, true => [(.logicalOperator, "<"), equals]
  | .greater, false => [(.logicalOperator, ">")]
  | .greater, true => [(.logicalOperator, ">"), equals]
  | .equal, _ => [equals, equals]
  | .notEqual, _ => [(.not, "!"), equals]

/-- The tokens of an expression that is an operand, a callee or the object of a member. -/
def Expr.asOperand (e : Expr) (w : List Spelling) : List Spelling :=
  if e.isLeaf then w else enclosed w

def memberWords (computed : Bool) (key : List Spelling) : List Spelling :=
  if computed then openBracket :: (key ++ [closeBracket]) else (.dot, ".") :: key

mutual

/-- The tokens that an expression is written with. -/
def Expr.words : Expr → List Spelling
  | .number x => [(.number, Decimal.plainText x)]
  | .text s => [(.string, s)]
  | .identifier name => [(.identifier, name)]
  | .array es => openBracket :: (separated (Expr.wordsOfEach es) ++ [closeBracket])
  | .object ps => openBrace :: (separated (Property.wordsOfEach ps) ++ [closeBrace])
  | .assign name value => (.identifier, name) :: equals :: value.words
  | .call callee arguments =>
    callee.asOperand callee.words ++ enclosed (separated (Expr.wordsOfEach arguments))
  | .member object key computed none =>
    object.asOperand object.words ++ memberWords computed key.words
  | .member object key computed (some value) =>
    object.asOperand object.words ++ (memberWords computed key.words ++ equals :: value.words)
  | .boolean left op right => left.asOperand left.words ++ (op.words ++ right.asOperand right.words)
  | .binary left op right => left.asOperand left.words ++ (op.words ++ right.asOperand right.words)
  | .logical left op admitsEqual right =>
    left.asOperand left.words ++ (op.words admitsEqual ++ right.asOperand right.words)
  | .not operand => (.not, "!") :: operand.asOperand operand.words

def Expr.wordsOfEach : List Expr → List (List Spelling)
  | [] => []
  | e :: es => e.words :: Expr.wordsOfEach es

def Property.words : Property → List Spelling
  | .shorthand key => [(.identifier, key)]
  | .valued key value => (.identifier, key) :: (.colon, ":") :: value.words

def Property.wordsOfEach : List Property → List (List Spelling)
  | [] => []
  | p :: ps => p.words :: Property.wordsOfEach ps

end

def Field.words (f : Field) : List Spelling :=
  [(.identifier, f.name), (.colon, ":"), (.identifier, f.typeName)]

mutual

/-- The tokens that a statement is written with, up to the semicolon behind it. -/
def Stmt.words : Stmt → List Spelling
  | .structDecl name fields => (.structWord, "struct") :: (.identifier, name) :: openBrace ::
      (separated (fields.map Field.words) ++ [closeBrace])
  | .fnDecl name parameters body => (.fnWord, "fn") :: (.identifier, name) ::
      (enclosed (separated (parameters.map fun q => [(.identifier, q)])) ++
        openBrace :: (Stmt.listWords body ++ [closeBrace]))
  | .ret value => (.returnWord, "return") :: value.words
  | .ifThen test body => (.ifWord, "if") ::
      (enclosed test.words ++ openBrace :: (Stmt.listWords body ++ [closeBrace]))
  | .whileDo test body => (.whileWord, "while") ::
      (enclosed test.words ++ openBrace :: (Stmt.listWords body ++ [closeBrace]))
  | .varDecl name constant value => (if constant then (.constWord, "const") else (.letWord, "let")) ::
      (.identifier, name) :: equals :: value.words
  | .expr value => value.words

def Stmt.listWords : List Stmt → List Spelling
  | [] => []
  | s :: ss => s.words ++ semicolon :: Stmt.listWords ss

end

/-- A program as source text: its tokens with one space between them, and a semicolon behind every
statement. -/
def Program.print (p : Program) : String :=
  String.ofList ([' '].intercalate ((Stmt.listWords p.body).map lexeme))

/-- A word of cased characters that is not reserved. -/
def IsName (s : String) : Prop :=
  s ≠ "" ∧ (∀ c ∈ s.toList, isCased c = true) ∧ Token.Kind.ofWord? s = none

/-- A finite number without a sign, zero among them, whose text reads back as the number. -/
structure IsLiteral (x : Float) : Prop where
  finite : x.isFinite = true
  unsigned : (Decimal.Binary.ofFloat x).negative = false
  reads : Decimal.read? (Decimal.plainText x).toList = some x

mutual

/-- The expressions that a program can spell. -/
def Expr.Printable : Expr → Prop
  | .number x => IsLiteral x
  | .text s => '"' ∉ s.toList
  | .identifier name => IsName name
  | .array es => Expr.AllPrintable es
  | .object ps => Property.AllPrintable ps
  | .assign name value => IsName name ∧ value.Printable
  | .call callee arguments => callee.Printable ∧ Expr.AllPrintable arguments
  | .member object key computed none => object.Printable ∧ key.Printable ∧
      (computed = false → ∃ name, key = .identifier name)
  | .member object key computed (some value) => (object.Printable ∧ key.Printable ∧
      (computed = false → ∃ name, key = .identifier name)) ∧ value.Printable
  | .boolean left _ right => left.Printable ∧ right.Printable
  | .binary left _ right => left.Printable ∧ right.Printable
  | .logical left op admitsEqual right => left.Printable ∧ right.Printable ∧
      (op = .equal ∨ op = .notEqual → admitsEqual = true)
  | .not operand => operand.Printable

def Expr.AllPrintable : List Expr → Prop
  | [] => True
  | e :: es => e.Printable ∧ Expr.AllPrintable es

def Property.Printable : Property → Prop
  | .shorthand key => IsName key
  | .valued key value => IsName key ∧ value.Printable

def Property.AllPrintable : List Property → Prop
  | [] => True
  | p :: ps => p.Printable ∧ Property.AllPrintable ps

end

mutual

/-- The statements that a program can spell. -/
def Stmt.Printable : Stmt → Prop
  | .structDecl name fields => IsName name ∧ fields ≠ [] ∧
      ∀ f ∈ fields, IsName f.name ∧ IsName f.typeName
  | .fnDecl name parameters body => IsName name ∧ (∀ q ∈ parameters, IsName q) ∧ Stmt.AllPrintable body
  | .ret value => value.Printable
  | .ifThen test body => test.Printable ∧ Stmt.AllPrintable body
  | .whileDo test body => test.Printable ∧ Stmt.AllPrintable body
  | .varDecl name _ value => IsName name ∧ value.Printable
  | .expr value => value.Printable

def Stmt.AllPrintable : List Stmt → Prop
  | [] => True
  | s :: ss => s.Printable ∧ Stmt.AllPrintable ss

end

def Program.Printable (p : Program) : Prop :=
  Stmt.AllPrintable p.body

end Scriptlet
