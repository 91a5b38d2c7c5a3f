import Scriptlet.Decimal.Read
import Scriptlet.Settings

namespace Scriptlet.Settings

inductive Entry where
  | integer (value : Int)
  | real (value : Float)

namespace Document

def isBlank (c : Char) : Bool :=
  c = ' ' || c = '\t'

def skipBlank (cs : List Char) : List Char :=
  cs.dropWhile isBlank

/-- The characters of a comment: tabs and all that is not a control character. -/
def isCommentChar (c : Char) : Bool :=
  c = '\t' || (0x20 ≤ c.toNat && c.toNat ≤ 0x7E) || 0x80 ≤ c.toNat

/-- What follows the end of a line: a line feed, with or without a carriage return before it, or
the end of the document. -/
def newline? : List Char → Option (List Char)
  | [] => some []
  | '\n' :: cs => some cs
  | '\r' :: '\n' :: cs => some cs
  | _ => none

def restOfLine? (cs : List Char) : Option (List Char) :=
  match skipBlank cs with
  | '#' :: more => newline? (more.dropWhile isCommentChar)
  | more => newline? more

def isBareChar (c : Char) : Bool :=
  ('a' ≤ c && c ≤ 'z') || ('A' ≤ c && c ≤ 'Z') || Decimal.isDigit c || c = '-' || c = '_'

def isLiteralChar (c : Char) : Bool :=
  isCommentChar c && c ≠ '\x27'

def isBasicChar (c : Char) : Bool :=
  isCommentChar c && c ≠ '"' && c ≠ '\\'

def hexDigit? (c : Char) : Option Nat :=
  if Decimal.isDigit c then some (c.toNat - '0'.toNat)
  else if 'a' ≤ c ∧ c ≤ 'f' then some (c.toNat - 'a'.toNat + 10)
  else if 'A' ≤ c ∧ c ≤ 'F' then some (c.toNat - 'A'.toNat + 10)
  else none

/-- The number that some hexadecimal digits spell, on top of `n`. -/
def hexNumber? : Nat → List Char → Option Nat
  | n, [] => some n
  | n, c :: cs => (hexDigit? c).bind fun d => hexNumber? (16 * n + d) cs

def codePoint? (cs : List Char) : Option Char :=
  (hexNumber? 0 cs).bind fun n => if n.isValidChar then some (Char.ofNat n) else none

def escape? : Char → Option Char
  | 'b' => some '\x08'
  | 't' => some '\t'
  | 'n' => some '\n'
  | 'f' => some '\x0c'
  | 'r' => some '\r'
  | '"' => some '"'
  | '\\' => some '\\'
  | _ => none

/-- A text in double quotes after its opening quote, given that it takes at most `n` steps, and
what follows it. -/
def basicText? : Nat → List Char → Option (List Char × List Char)
  | 0, _ => none
  | n + 1, cs =>
    let andThen (c : Char) (rest : List Char) : Option (List Char × List Char) :=
      (basicText? n rest).map fun (text, rest) => (c :: text, rest)
    match cs with
    | [] => none
    | '"' :: rest => some ([], rest)
    | '\\' :: 'u' :: rest =>
      if 4 ≤ rest.length then (codePoint? (rest.take 4)).bind (andThen · (rest.drop 4)) else none
    | '\\' :: 'U' :: rest =>
      if 8 ≤ rest.length then (codePoint? (rest.take 8)).bind (andThen · (rest.drop 8)) else none
    | '\\' :: c :: rest => (escape? c).bind (andThen · rest)
    | c :: rest => if isBasicChar c then andThen c rest else none

def name? : List Char → Option (List Char × List Char)
  | '"' :: cs => basicText? (cs.length + 1) cs
  | '\x27' :: cs =>
    match cs.dropWhile isLiteralChar with
    | '\x27' :: rest => some (cs.takeWhile isLiteralChar, rest)
    | _ => none
  | cs =>
    let name := cs.takeWhile isBareChar
    if name.isEmpty then none else some (name, cs.dropWhile isBareChar)

/-- More digits of a number, in which an underscore stands between two of them. -/
def moreDigits? (isDigit : Char → Bool) : List Char → Option (List Char × List Char)
  | [] => some ([], [])
  | ['_'] => none
  | '_' :: c :: cs =>
    if isDigit c then (moreDigits? isDigit cs).map fun (ds, rest) => (c :: ds, rest) else none
  | c :: cs =>
    if isDigit c then (moreDigits? isDigit cs).map fun (ds, rest) => (c :: ds, rest)
    else some ([], c :: cs)

def digits? (isDigit : Char → Bool) : List Char → Option (List Char × List Char)
  | [] => none
  | c :: cs =>
    if isDigit c then (moreDigits? isDigit cs).map fun (ds, rest) => (c :: ds, rest) else none

/-- The digits of a decimal whole number, which begin with a zero only if it is alone. -/
def decimalDigits? : List Char → Option (List Char × List Char)
  | '0' :: cs => some (['0'], cs)
  | cs => digits? Decimal.isDigit cs

def ofDigits (base : Nat) (cs : List Char) : Nat :=
  cs.foldl (fun n c => base * n + (hexDigit? c).getD 0) 0

def isDigitOf (base : Nat) (c : Char) : Bool :=
  match hexDigit? c with
  | some d => d < base
  | none => false

/-- A whole number after the mark of its base. It has no sign and fits 63 bits. -/
def based? (base : Nat) (cs : List Char) : Option (Entry × List Char) :=
  (digits? (isDigitOf base) cs).bind fun (ds, rest) =>
    let n := ofDigits base ds
    if n < Nat.pow 2 63 then some (.integer n, rest) else none

def exponent? : List Char → Option (List Char × List Char)
  | [] => some ([], [])
  | c :: cs =>
    if c = 'e' ∨ c = 'E' then
      let (sign, more) := match cs with
        | '+' :: more => (['+'], more)
        | '-' :: more => (['-'], more)
        | more => ([], more)
      (digits? Decimal.isDigit more).map fun (ds, rest) => ('e' :: sign ++ ds, rest)
    else some ([], c :: cs)

def fraction? : List Char → Option (List Char × List Char)
  | '.' :: cs => (digits? Decimal.isDigit cs).map fun (ds, rest) => ('.' :: ds, rest)
  | cs => some ([], cs)

/-- The entry of a decimal number. A whole number fits 64 bits; a real one is not too large. -/
def decimal? (negative : Bool) (whole fraction exponent : List Char) : Option Entry :=
  if fraction.isEmpty && exponent.isEmpty then
    let n : Int := ofDigits 10 whole
    let n := if negative then -n else n
    if -(Nat.pow 2 63 : Int) ≤ n ∧ n < (Nat.pow 2 63 : Int) then some (.integer n) else none
  else
    (Decimal.read? (whole ++ fraction ++ exponent)).bind fun x =>
      if negative then some (.real (-x))
      else if x.isInf then none
      else some (.real x)

def unsigned? (negative : Bool) (cs : List Char) : Option (Entry × List Char) :=
  match cs with
  | 'i' :: 'n' :: 'f' :: rest =>
    let x := Float.ofBits 0x7FF0000000000000
    some (.real (if negative then -x else x), rest)
  | 'n' :: 'a' :: 'n' :: rest => some (.real (Float.ofBits 0x7FF8000000000000), rest)
  | _ =>
    (decimalDigits? cs).bind fun (whole, rest) =>
    (fraction? rest).bind fun (fraction, rest) =>
    (exponent? rest).bind fun (exponent, rest) =>
    (decimal? negative whole fraction exponent).map fun entry => (entry, rest)

def number? : List Char → Option (Entry × List Char)
  | '0' :: 'x' :: cs => based? 16 cs
  | '0' :: 'o' :: cs => based? 8 cs
  | '0' :: 'b' :: cs => based? 2 cs
  | '+' :: cs => unsigned? false cs
  | '-' :: cs => unsigned? true cs
  | cs => unsigned? false cs

def line? (cs : List Char) : Option ((String × Entry) × List Char) :=
  (name? cs).bind fun (name, rest) =>
    match skipBlank rest with
    | '=' :: rest =>
      (number? (skipBlank rest)).bind fun (entry, rest) =>
        (restOfLine? rest).map fun rest => ((String.ofList name, entry), rest)
    | _ => none

/-- The entries of the lines of a document, which takes at most `n` steps. -/
def lines? : Nat → List Char → Option (List (String × Entry))
  | 0, _ => none
  | n + 1, cs =>
    match skipBlank cs with
    | [] => some []
    | '#' :: more => (newline? (more.dropWhile isCommentChar)).bind (lines? n)
    | '\n' :: more => lines? n more
    | '\r' :: '\n' :: more => lines? n more
    | more => (line? more).bind fun (entry, rest) => (lines? n rest).map (entry :: ·)

/-- The entries of a document, which a byte order mark may open. -/
def entries? (document : String) : Option (List (String × Entry)) :=
  let cs := document.toList
  let cs := if cs.head? = some (Char.ofNat 0xFEFF) then cs.tail else cs
  lines? (cs.length + 1) cs

end Document

namespace Entry

def count? : Entry → Option Nat
  | integer n => if 0 ≤ n then some n.toNat else none
  | real _ => none

def toReal : Entry → Float
  | integer n => if n < 0 then -Decimal.nearest n.natAbs 0 else Decimal.nearest n.natAbs 0
  | real x => x

end Entry

/-- Settings with one of them changed, if there is one of that name and it takes the value. -/
def put? (s : Settings) (name : String) (entry : Entry) : Option Settings :=
  if name = "max_frames" then entry.count?.map fun n => { s with maxFrames := n }
  else if name = "frame_ms" then some { s with frameMs := entry.toReal }
  else if name = "max_steps" then entry.count?.map fun n => { s with maxSteps := some n }
  else if name = "seed" then entry.count?.map fun n => { s with seed := some (UInt64.ofNat n) }
  else if name = "max_call_depth" then entry.count?.map fun n => { s with maxCallDepth := n }
  else none

def putAll? : List (String × Entry) → Settings → Option Settings
  | [], s => some s
  | (name, entry) :: rest, s =>
    if rest.any fun e => e.1 = name then none
    else (s.put? name entry).bind (putAll? rest)

/-- The settings of a TOML document; what it leaves out is as by default. Every setting is a number,
so the documents with an answer are those that give numbers to names of settings, each at most once,
besides comments and empty lines. Tables and other values are good TOML, but no setting has such a
name or value. -/
def ofDocument? (document : String) : Option Settings :=
  (Document.entries? document).bind fun entries => putAll? entries default

end Scriptlet.Settings
