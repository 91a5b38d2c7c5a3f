import Scriptlet.File.Path
import Scriptlet.Host
import Scriptlet.Program.Tree
import Scriptlet.Settings.Document

namespace Scriptlet.CommandLine

structure Invocation where
  file : String
  dumpTokens : Bool
  dumpTree : Bool
  settingsFile : Option String
  maxFrames : Option Nat
  seed : Option UInt64
  verbose : Bool

inductive Request where
  | run (invocation : Invocation)
  | version
  | help
  | misuse

structure Draft where
  file : Option String
  dumpTokens : Bool
  dumpTree : Bool
  settingsFile : Option String
  maxFrames : Option Nat
  seed : Option Nat
  verbose : Bool

namespace Draft

def empty : Draft := ⟨none, false, false, none, none, none, false⟩

/-- What the arguments ask for when all are read: a file is needed. -/
def finish (d : Draft) : Request :=
  match d.file with
  | some file =>
    .run ⟨file, d.dumpTokens, d.dumpTree, d.settingsFile, d.maxFrames, d.seed.map UInt64.ofNat,
      d.verbose⟩
  | none => .misuse

/-- Takes a file; there is only one, and its name is not empty. -/
def setFile? (d : Draft) (name : String) : Option Draft :=
  if d.file.isSome || name.isEmpty then none else some { d with file := some name }

end Draft

/-- A whole number of 64 bits, with or without a plus. -/
def word? (text : String) : Option Nat :=
  let digits := match text.toList with
    | '+' :: cs => cs
    | cs => cs
  if digits.isEmpty || !digits.all Decimal.isDigit then none
  else
    let n := Decimal.ofDigits digits
    if n < Nat.pow 2 64 then some n else none

def setOption? (d : Draft) (name value : String) : Option Draft :=
  if name = "config" then
    if d.settingsFile.isSome || value.isEmpty then none
    else some { d with settingsFile := some value }
  else if name = "max-frames" then
    if d.maxFrames.isSome then none else (word? value).map fun n => { d with maxFrames := some n }
  else if name = "seed" then
    if d.seed.isSome then none else (word? value).map fun n => { d with seed := some n }
  else none

def takesValue (name : String) : Bool :=
  name = "config" || name = "max-frames" || name = "seed"

def setFlag? (d : Draft) (name : String) : Option Draft :=
  if name = "dump-tokens" then if d.dumpTokens then none else some { d with dumpTokens := true }
  else if name = "dump-ast" then if d.dumpTree then none else some { d with dumpTree := true }
  else if name = "verbose" then if d.verbose then none else some { d with verbose := true }
  else none

/-- What short flags do: read on, or answer at once. -/
def shortFlags (d : Draft) : List Char → Sum Draft Request
  | [] => .inl d
  | 'v' :: cs =>
    match setFlag? d "verbose" with
    | some d' => shortFlags d' cs
    | none => .inr .misuse
  | 'V' :: _ => .inr .version
  | 'h' :: _ => .inr .help
  | _ => .inr .misuse

/-- Whether an argument is read as an option rather than as a value. -/
def looksLikeOption (arg : String) : Bool :=
  arg.startsWith "-" && arg ≠ "-"

def readFiles (d : Draft) : List String → Request
  | [] => d.finish
  | arg :: rest =>
    match d.setFile? arg with
    | some d' => readFiles d' rest
    | none => .misuse

def splitOption (arg : List Char) : String × Option String :=
  match arg.dropWhile (· ≠ '=') with
  | [] => (String.ofList arg, none)
  | _ :: value => (String.ofList (arg.takeWhile (· ≠ '=')), some (String.ofList value))

/-- Reads arguments one after another; the first that is wrong, or that asks for the version or for
help, decides. `pending` is an option that waits for its value. -/
def readArguments : Draft → Option String → List String → Request
  | d, none, [] => d.finish
  | _, some _, [] => .misuse
  | d, some option, arg :: rest =>
    if looksLikeOption arg then .misuse
    else
      match setOption? d option arg with
      | some d' => readArguments d' none rest
      | none => .misuse
  | d, none, arg :: rest =>
    match arg.toList with
    | ['-', '-'] => readFiles d rest
    | '-' :: '-' :: cs =>
      match splitOption cs with
      | (name, some value) =>
        match setOption? d name value with
        | some d' => readArguments d' none rest
        | none => .misuse
      | (name, none) =>
        if name = "version" then .version
        else if name = "help" then .help
        else if takesValue name then readArguments d (some name) rest
        else
          match setFlag? d name with
          | some d' => readArguments d' none rest
          | none => .misuse
    | '-' :: c :: cs =>
      match shortFlags d (c :: cs) with
      | .inl d' => readArguments d' none rest
      | .inr request => request
    | _ =>
      match d.setFile? arg with
      | some d' => readArguments d' none rest
      | none => .misuse

def request (arguments : List String) : Request :=
  readArguments .empty none arguments

/-- What a command line can read: the standard input, and files by their paths. They are handed in,
so that the answer to arguments is a function. -/
structure Sources where
  stdin : File.Contents
  file : String → File.Contents

structure Report where
  code : UInt32
  stdout : String
  stderr : String

/-- Whether a path stands for the standard input in place of a source file: the path whose one
name is a dash, however it is spelt. -/
def isStandardInput (path : String) : Bool :=
  File.Path.ofString path = ⟨false, ["-"]⟩

def sourceOf (sources : Sources) (i : Invocation) : Except String String :=
  if isStandardInput i.file then
    sources.stdin.text.mapError fun cause => s!"failed to read stdin: {cause.message}"
  else
    (sources.file i.file).text.mapError fun cause =>
      s!"failed to read {i.file}: {cause.message}"

/-- The settings of a run: those of a file, if one is named, and then those of the arguments. -/
def settingsOf (sources : Sources) (i : Invocation) : Except Error Settings := do
  let base ← match i.settingsFile with
    | none => .ok Settings.default
    | some path =>
      match (sources.file path).text with
      | .error cause => .error (.settings (.unreadable path cause))
      | .ok text =>
        match Settings.ofDocument? text with
        | some s => .ok s
        | none => .error (.settings .malformed)
  let base := match i.maxFrames with
    | some n => { base with maxFrames := n }
    | none => base
  return match i.seed with
    | some n => { base with seed := some n }
    | none => base

def failure (stdout message : String) : Report :=
  ⟨1, stdout, "error: " ++ message ++ "\n"⟩

def printed (lines : Array String) : String :=
  String.join (lines.toList.map (· ++ "\n"))

/-- What a run leaves behind: every line it ever printed, also those that it cleared. -/
def reportOf (r : Run) : Report :=
  let stdout := printed r.host.output.echoed
  match r.result with
  | .ok _ => ⟨0, stdout, ""⟩
  | .error e => failure stdout e.message

def perform (fuel : Nat) (entropy : UInt64) (sources : Sources) (i : Invocation) :
    Option Report :=
  match sourceOf sources i with
  | .error message => some (failure "" message)
  | .ok source =>
    match Token.scan source with
    | .error e => some (failure "" (Error.scan e).message)
    | .ok tokens =>
      if i.dumpTokens then
        some ⟨0, (Json.array (tokens.map Token.toJson)).pretty ++ "\n", ""⟩
      else
        match Program.parse tokens with
        | .error e => some (failure "" (Error.parse e).message)
        | .ok program =>
          if i.dumpTree then some ⟨0, program.toJson.pretty ++ "\n", ""⟩
          else
            match settingsOf sources i with
            | .error e => some (failure "" e.message)
            | .ok settings =>
              let host := { Host.new settings with entropy }
              (host.runProgram fuel program).map reportOf

def versionText : String := "lightscript 0.1.0\n"

def usageText : String :=
  "Usage: lightscript [OPTIONS] <FILE>\n"

/-- What the program answers to its arguments. There is no answer if the bound on steps does not
suffice. -/
def run (fuel : Nat) (entropy : UInt64) (sources : Sources) (arguments : List String) :
    Option Report :=
  match request arguments with
  | .version => some ⟨0, versionText, ""⟩
  | .help => some ⟨0, usageText, ""⟩
  | .misuse => some ⟨2, "", usageText⟩
  | .run i => perform fuel entropy sources i

end Scriptlet.CommandLine
