namespace Scriptlet

/-- The lines that are kept, and every line ever written, which an echoing host has shown. -/
structure Output where
  lines : Array String
  echoed : Array String

namespace Output

def empty : Output := ⟨#[], #[]⟩

/-- Cuts a text at each backslash followed by the letter n, given the characters of the line under
way in reverse. -/
def splitLines : List Char → List Char → List String
  | [], line => [String.ofList line.reverse]
  | '\\' :: 'n' :: cs, line => String.ofList line.reverse :: splitLines cs []
  | c :: cs, line => splitLines cs (c :: line)

def linesOf (text : String) : List String :=
  splitLines text.toList []

def write (o : Output) (text : String) : Output :=
  ⟨o.lines ++ linesOf text, o.echoed ++ linesOf text⟩

def clear (o : Output) : Output :=
  { o with lines := #[] }

def contents (o : Output) : String :=
  "\n".intercalate o.lines.toList

end Output

end Scriptlet
