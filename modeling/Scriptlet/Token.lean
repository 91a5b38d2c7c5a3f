import Scriptlet.Text.Position

namespace Scriptlet

namespace Token

inductive Kind where
  | number
  | string
  | identifier
  | openParen
  | closeParen
  | binaryOperator
  | booleanOperator
  | logicalOperator
  | letWord
  | constWord
  | fnWord
  | returnWord
  | ifWord
  | whileWord
  | forWord
  | structWord
  | classWord
  | equals
  | not
  | comma
  | openBrace
  | closeBrace
  | openBracket
  | closeBracket
  | colon
  | semicolon
  | dot
  | eof
  deriving DecidableEq, Repr

namespace Kind

def name : Kind → String
  | number => "NumericLiteral"
  | string => "StringLiteral"
  | identifier => "Identifier"
  | openParen => "OpenParen"
  | closeParen => "CloseParen"
  | binaryOperator => "BinaryOperator"
  | booleanOperator => "BooleanOperator"
  | logicalOperator => "LogicalOperator"
  | letWord => "Let"
  | constWord => "Const"
  | fnWord => "Function"
  | returnWord => "Return"
  | ifWord => "If"
  | whileWord => "While"
  | forWord => "For"
  | structWord => "Struct"
  | classWord => "Class"
  | equals => "Equals"
  | not => "Not"
  | comma => "Comma"
  | openBrace => "OpenBrace"
  | closeBrace => "CloseBrace"
  | openBracket => "OpenBracket"
  | closeBracket => "CloseBracket"
  | colon => "Colon"
  | semicolon => "Semicolon"
  | dot => "Dot"
  | eof => "Eof"

def all : List Kind :=
  [number, string, identifier, openParen, closeParen, binaryOperator, booleanOperator,
    logicalOperator, letWord, constWord, fnWord, returnWord, ifWord, whileWord, forWord,
    structWord, classWord, equals, not, comma, openBrace, closeBrace, openBracket, closeBracket,
    colon, semicolon, dot, eof]

def ofName? (s : String) : Option Kind :=
  all.find? fun k => k.name == s

def ofWord? (s : String) : Option Kind :=
  if s = "let" then some letWord
  else if s = "const" then some constWord
  else if s = "fn" then some fnWord
  else if s = "return" then some returnWord
  else if s = "if" then some ifWord
  else if s = "while" then some whileWord
  else if s = "for" then some forWord
  else if s = "struct" then some structWord
  else if s = "class" then some classWord
  else none

def ofSymbol? : Char → Option Kind
  | '(' => some openParen
  | ')' => some closeParen
  | '{' => some openBrace
  | '}' => some closeBrace
  | '[' => some openBracket
  | ']' => some closeBracket
  | ',' => some comma
  | '.' => some dot
  | ':' => some colon
  | ';' => some semicolon
  | '&' => some booleanOperator
  | '|' => some booleanOperator
  | '<' => some logicalOperator
  | '>' => some logicalOperator
  | '+' => some binaryOperator
  | '-' => some binaryOperator
  | '*' => some binaryOperator
  | '/' => some binaryOperator
  | '%' => some binaryOperator
  | '=' => some equals
  | '!' => some not
  | _ => none

def isReserved : Kind → Bool
  | letWord | constWord | fnWord | returnWord | ifWord | whileWord | forWord | structWord
  | classWord => true
  | _ => false

end Kind

end Token

/-- A kind, the text that spells it (a string without its quotes, a number without underscores)
and the place where it begins. -/
structure Token where
  kind : Token.Kind
  text : String
  position : Text.Position
  deriving DecidableEq, Repr

namespace Token

/-- The token that stands for the end of the source. -/
def eof (p : Text.Position) : Token :=
  ⟨.eof, "EOF", p⟩

def describe (t : Token) : String :=
  s!"<{t.kind.name}: {t.text}>"

end Token

end Scriptlet
