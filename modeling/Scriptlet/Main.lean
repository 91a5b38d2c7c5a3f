import Scriptlet.CommandLine

namespace Scriptlet.CommandLine

/-- More steps than any run takes. -/
def enoughSteps : Nat := Nat.pow 2 60

def reasonOf (e : IO.Error) : File.ReadError :=
  match e with
  | .noFileOrDirectory .. => .missing
  | .permissionDenied .. => .denied
  | .inappropriateType _ code _ => if code = 21 then .isDirectory else .notDirectory
  | .invalidArgument _ code _ =>
    if code = 36 ∨ -code = 36 then .nameTooLong else .other (toString e)
  | other => .other (toString other)

def contentsOf (read : IO ByteArray) : IO File.Contents := do
  try
    return .ok (← read)
  catch e => return .error (reasonOf e)

/-- Reads what a run needs and nothing else. -/
def gather (i : Invocation) : IO Sources := do
  let fromStdin := isStandardInput i.file
  let stdin ← if fromStdin then contentsOf do (← IO.getStdin).readBinToEnd else pure (.ok .empty)
  let paths := i.settingsFile.toList ++ (if fromStdin then [] else [i.file])
  let files ← paths.mapM fun (path : String) => do
    return (path, ← contentsOf (IO.FS.readBinFile path))
  return ⟨stdin, fun path => (files.lookup path).getD (.error .missing)⟩

def noSources : Sources := ⟨.ok .empty, fun _ => .error .missing⟩

end Scriptlet.CommandLine

def main (arguments : List String) : IO UInt32 := do
  let sources ← match Scriptlet.CommandLine.request arguments with
    | .run i => Scriptlet.CommandLine.gather i
    | _ => pure Scriptlet.CommandLine.noSources
  let entropy := UInt64.ofNat (← IO.rand 0 (Nat.pow 2 62))
  match Scriptlet.CommandLine.run Scriptlet.CommandLine.enoughSteps entropy sources arguments with
  | some report =>
    IO.print report.stdout
    IO.eprint report.stderr
    return report.code
  | none => return 1
