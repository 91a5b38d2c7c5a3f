namespace Scriptlet.File

/-- Cuts a text at each slash, given the characters of the name under way in reverse. -/
def cutSlashes : List Char → List Char → List String
  | [], name => [String.ofList name.reverse]
  | '/' :: cs, name => String.ofList name.reverse :: cutSlashes cs []
  | c :: cs, name => cutSlashes cs (c :: name)

def segments (path : String) : List String :=
  cutSlashes path.toList []

def isAbsolute (path : String) : Bool :=
  path.toList.head? = some '/'

def isStep (segment : String) : Bool :=
  segment ≠ "" && segment ≠ "."

/-- A path apart from its spelling: whether it begins at the root, and its names. A slash may be
doubled or close a path, and a dot may stand between two slashes; a dot is a name only where it
opens the path. -/
structure Path where
  absolute : Bool
  names : List String
  deriving DecidableEq, Repr

namespace Path

def ofString (path : String) : Path :=
  match segments path with
  | [] => ⟨false, []⟩
  | "" :: rest => ⟨isAbsolute path, rest.filter isStep⟩
  | first :: rest => ⟨false, first :: rest.filter isStep⟩

end Path

end Scriptlet.File
