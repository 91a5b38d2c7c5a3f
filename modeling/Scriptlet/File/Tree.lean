import Scriptlet.File.Contents
import Scriptlet.File.Path

namespace Scriptlet.File

/-- Files by the names that lead to them from the root, and the directory where relative paths
begin. The directories are those on the way to a file or to `here`. -/
structure Tree where
  files : List (List String × ByteArray)
  here : List String

inductive Place where
  | file (bytes : ByteArray)
  | directory
  | nothing

def maxName : Nat := 255

def maxPath : Nat := 4095

namespace Tree

def place (t : Tree) (names : List String) : Place :=
  match t.files.lookup names with
  | some bytes => .file bytes
  | none =>
    if names.isPrefixOf t.here || t.files.any fun f => names.isPrefixOf f.1 then .directory
    else .nothing

def walk (t : Tree) : List String → List String → Contents
  | names, [] =>
    match t.place names with
    | .file bytes => .ok bytes
    | .directory => .error .isDirectory
    | .nothing => .error .missing
  | names, segment :: rest =>
    match t.place names with
    | .file _ => .error .notDirectory
    | .nothing => .error .missing
    | .directory =>
      if !isStep segment then t.walk names rest
      else if segment = ".." then t.walk names.dropLast rest
      else if maxName < segment.utf8ByteSize then .error .nameTooLong
      else t.walk (names ++ [segment]) rest

/-- What reading a path gives. It is walked name by name; every name but the last has to be that of
a directory, and so has the last if a slash follows it. -/
def read (t : Tree) (path : String) : Contents :=
  if path.isEmpty then .error .missing
  else if maxPath < path.utf8ByteSize then .error .nameTooLong
  else t.walk (if isAbsolute path then [] else t.here) (segments path)

end Tree

end Scriptlet.File
