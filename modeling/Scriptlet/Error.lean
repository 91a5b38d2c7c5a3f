import Scriptlet.Fault
import Scriptlet.File.Contents
import Scriptlet.Program.Cursor
import Scriptlet.Token.Scan

namespace Scriptlet

inductive SettingsError where
  | unreadable (path : String) (cause : File.ReadError)
  | malformed
  deriving DecidableEq, Repr

/-- Why a source text has no answer. -/
inductive Error where
  | scan (cause : Token.ScanError)
  | parse (cause : Program.ParseError)
  | runtime (cause : Fault)
  | settings (cause : SettingsError)
  deriving DecidableEq, Repr

namespace Error

/-- The parts of the work in which errors arise. -/
inductive Category where
  | lex
  | parse
  | runtime
  | config
  deriving DecidableEq, Repr

def Category.name : Category → String
  | lex => "Lex"
  | parse => "Parse"
  | runtime => "Runtime"
  | config => "Config"

def category : Error → Category
  | scan _ => .lex
  | parse _ => .parse
  | runtime _ => .runtime
  | settings _ => .config

def position? : Error → Option Text.Position
  | scan e => some e.position
  | parse e => some e.position
  | runtime _ => none
  | settings _ => none

def placed (stage : String) (p : Text.Position) (message : String) : String :=
  s!"{stage} error at line {p.line}, column {p.column}: {message}"

def message : Error → String
  | scan e => placed "Lex" e.position e.cause.message
  | parse e => placed "Parse" e.position e.cause.message
  | runtime f => f.message
  | settings (.unreadable path cause) =>
    s!"Invalid configuration: cannot read {path}: {cause.message}"
  | settings .malformed => "Invalid configuration: not a document of settings"

end Error

end Scriptlet
