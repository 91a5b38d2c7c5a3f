import Scriptlet.Decimal.Read
import Scriptlet.Text.Cased
import Scriptlet.Token

namespace Scriptlet.Token

open Scriptlet.Text

inductive ScanCause where
  | unterminatedComment
  | unterminatedString
  | malformedNumber (text : String)
  | unknownCharacter (c : Char)
  deriving DecidableEq, Repr

def ScanCause.message : ScanCause → String
  | .unterminatedComment => "Unterminated block comment"
  | .unterminatedString => "Unterminated string literal"
  | .malformedNumber text => s!"Error parsing number literal `{text}`"
  | .unknownCharacter c => "Unknown character '" ++ String.singleton c ++ "'"

/-- A cause and the place where the offending piece begins. -/
structure ScanError where
  position : Position
  cause : ScanCause
  deriving DecidableEq, Repr

/-- One piece of source: its characters, and the kind and text of its token. Blanks and comments are
pieces that give no token. -/
structure Piece where
  lexeme : List Char
  token? : Option (Kind × String)

def isSpace (c : Char) : Bool :=
  c == ' ' || c == '\t' || c == '\n' || c == '\r'

def isNumberStart (c : Char) : Bool :=
  Decimal.isDigit c || c == '_'

def isNumberChar (c : Char) : Bool :=
  Decimal.isDigit c || c == '.' || c == '_'

/-- A comment's characters after its opening two, up to its end, and what follows. -/
def splitComment : List Char → Option (List Char × List Char)
  | [] => none
  | '*' :: '/' :: cs => some (['*', '/'], cs)
  | c :: cs => (splitComment cs).map fun (body, rest) => (c :: body, rest)

def commentPiece (cs : List Char) : Except ScanCause (Piece × List Char) :=
  match splitComment cs with
  | some (body, rest) => .ok (⟨'/' :: '*' :: body, none⟩, rest)
  | none => .error .unterminatedComment

def stringPiece (cs : List Char) : Except ScanCause (Piece × List Char) :=
  let body := cs.takeWhile (· ≠ '"')
  match cs.dropWhile (· ≠ '"') with
  | [] => .error .unterminatedString
  | q :: rest => .ok (⟨'"' :: (body ++ [q]), some (.string, String.ofList body)⟩, rest)

/-- The piece of a number; its text leaves out the underscores and has to spell a number. -/
def numberPiece (cs : List Char) : Except ScanCause (Piece × List Char) :=
  let lexeme := cs.takeWhile isNumberChar
  let digits := lexeme.filter (· ≠ '_')
  if (Decimal.read? digits).isSome then
    .ok (⟨lexeme, some (.number, String.ofList digits)⟩, cs.dropWhile isNumberChar)
  else .error (.malformedNumber (String.ofList digits))

def wordPiece (cs : List Char) : Piece × List Char :=
  let lexeme := cs.takeWhile isCased
  let word := String.ofList lexeme
  (⟨lexeme, some ((Kind.ofWord? word).getD .identifier, word)⟩, cs.dropWhile isCased)

/-- The first piece of the text `c :: cs`, and the text after it. How a piece begins decides what it
is, and it takes as many characters as it can. -/
def nextPiece (c : Char) (cs : List Char) : Except ScanCause (Piece × List Char) :=
  if isSpace c then .ok (⟨[c], none⟩, cs)
  else if c = '/' ∧ cs.head? = some '*' then commentPiece cs.tail
  else if c = '"' then stringPiece cs
  else if isNumberStart c then numberPiece (c :: cs)
  else if isCased c then .ok (wordPiece (c :: cs))
  else
    match Kind.ofSymbol? c with
    | some kind => .ok (⟨[c], some (kind, String.singleton c)⟩, cs)
    | none => .error (.unknownCharacter c)

/-- The tokens of a text that begins at `p`. Each piece has a character, so a text needs no more
steps than it has characters. -/
def scanFrom : Nat → Position → List Char → Except ScanError (List Token)
  | 0, p, _ => .ok [eof p]
  | _ + 1, p, [] => .ok [eof p]
  | n + 1, p, c :: cs =>
    match nextPiece c cs with
    | .error cause => .error ⟨p, cause⟩
    | .ok (piece, rest) =>
      match scanFrom n (p.after piece.lexeme) rest with
      | .error e => .error e
      | .ok tokens =>
        match piece.token? with
        | some (kind, text) => .ok (⟨kind, text, p⟩ :: tokens)
        | none => .ok tokens

/-- The tokens of a source text, closed by the token of its end. -/
def scan (source : String) : Except ScanError (List Token) :=
  scanFrom (source.toList.length + 1) .start source.toList

end Scriptlet.Token
