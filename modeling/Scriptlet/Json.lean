import Scriptlet.Decimal.Layout

namespace Scriptlet

/-- A JSON value, with the entries of an object in order. Whole numbers and numbers with a fraction
are written differently. -/
inductive Json where
  | null
  | bool (value : Bool)
  | integer (value : Int)
  | real (value : Float)
  | text (value : String)
  | array (items : List Json)
  | object (entries : List (String × Json))
  deriving Inhabited

namespace Json

def escapeControl (c : Char) : List Char :=
  let digits := Nat.toDigits 16 c.toNat
  ['\\', 'u'] ++ List.replicate (4 - digits.length) '0' ++ digits

def escape (c : Char) : List Char :=
  if c = '"' then ['\\', '"']
  else if c = '\\' then ['\\', '\\']
  else if c = '\x08' then ['\\', 'b']
  else if c = '\x0c' then ['\\', 'f']
  else if c = '\n' then ['\\', 'n']
  else if c = '\r' then ['\\', 'r']
  else if c = '\t' then ['\\', 't']
  else if c.toNat < 0x20 then escapeControl c
  else [c]

def quote (s : String) : List Char :=
  '"' :: (s.toList.flatMap escape ++ ['"'])

def indent (level : Nat) : List Char :=
  List.replicate (2 * level) ' '

mutual

/-- The text of a value whose lines after the first stand at `level`. -/
def write (level : Nat) : Json → List Char
  | null => "null".toList
  | bool b => if b then "true".toList else "false".toList
  | integer n => (toString n).toList
  | real x => ((Decimal.jsonText x).getD "null").toList
  | text s => quote s
  | array [] => ['[', ']']
  | array (x :: xs) =>
    '[' :: '\n' :: (indent (level + 1) ++ write (level + 1) x ++ writeItems (level + 1) xs ++
      '\n' :: (indent level ++ [']']))
  | object [] => ['{', '}']
  | object ((k, v) :: es) =>
    '{' :: '\n' :: (indent (level + 1) ++ quote k ++ ':' :: ' ' :: write (level + 1) v ++
      writeEntries (level + 1) es ++ '\n' :: (indent level ++ ['}']))

def writeItems (level : Nat) : List Json → List Char
  | [] => []
  | x :: xs => ',' :: '\n' :: (indent level ++ write level x ++ writeItems level xs)

def writeEntries (level : Nat) : List (String × Json) → List Char
  | [] => []
  | (k, v) :: es =>
    ',' :: '\n' :: (indent level ++ quote k ++ ':' :: ' ' :: write level v ++
      writeEntries level es)

end

/-- The text of a value: two spaces for each level, one item a line, nothing between the brackets of
an empty array or object. -/
def pretty (j : Json) : String :=
  String.ofList (j.write 0)

end Json

end Scriptlet
