import Scriptlet.Value

namespace Scriptlet

/-- A value that does not fit its place. Values are recorded by their kind and their text. -/
inductive Mismatch where
  | unreadableMember (key : String) (kind : Value.Kind) (shown : String)
  | unwritableMember (key : String) (kind : Value.Kind) (shown : String)
  | indexNotWhole (key : String)
  | indexPastEnd (key : String) (length : Nat)
  | wrongField (field struct expected : String) (kind : Value.Kind) (shown : String)
  | notCallable (kind : Value.Kind) (shown : String)
  | notArithmetic (kind : Value.Kind) (shown : String) (operator : BinaryOp)
  | noClosure (kind : Value.Kind) (name : String)
  deriving DecidableEq, Repr

/-- A tree that no source spells, or a return with nothing to return from. -/
inductive Irregularity where
  | strayReturn
  | memberName (kind : String)
  deriving DecidableEq, Repr

inductive Refusal where
  | tooFewArguments (expected got : Nat)
  | numberMissing
  | functionMissing
  | notAFunction (kind : Value.Kind)
  deriving DecidableEq, Repr

/-- Why a running program stops early. -/
inductive Fault where
  | undeclared (name : String)
  | unassigned (name : String)
  | redeclared (name : String)
  | constantAssigned (name : String)
  | mismatch (cause : Mismatch)
  | missingField (struct field : String)
  | divisionByZero
  | irregular (cause : Irregularity)
  | callDepthExceeded (limit : Nat)
  | native (name : String) (cause : Refusal)
  deriving DecidableEq, Repr

def Mismatch.message : Mismatch → String
  | unreadableMember key kind shown => s!"cannot read member `{key}` of {kind.name} ({shown})"
  | unwritableMember key kind shown => s!"cannot assign member `{key}` of {kind.name} ({shown})"
  | indexNotWhole key => s!"array index must be a whole number, got {key}"
  | indexPastEnd key length => s!"array index {key} is past the end (length {length})"
  | wrongField field struct expected kind shown =>
    s!"field `{field}` of struct {struct} expects {expected}, got {kind.name} ({shown})"
  | notCallable kind shown => s!"{kind.name} ({shown}) is not callable"
  | notArithmetic kind shown operator =>
    s!"binary expression received {kind.name} ({shown}) which does not support operator " ++
      "\"" ++ operator.symbol ++ "\""
  | noClosure kind name => s!"cannot attach a closure to {kind.name} `{name}`"

def Irregularity.message : Irregularity → String
  | strayReturn => "ReturnStatement outside of a function"
  | memberName kind => s!"{kind} as member name"

def Refusal.message : Refusal → String
  | tooFewArguments expected got => s!"expected {expected} argument(s), got {got}"
  | numberMissing => "expected a number"
  | functionMissing => "expected a function"
  | notAFunction kind => s!"expected a function, got {kind.name}"

def Fault.message : Fault → String
  | undeclared name => s!"Can't resolve {name}"
  | unassigned name => s!"{name} hasn't been declared"
  | redeclared name => s!"Cannot declare variable {name} again"
  | constantAssigned name => "Cannot assign to constant variable \"" ++ name ++ "\""
  | mismatch cause => s!"Type mismatch: {cause.message}"
  | missingField struct field => s!"Missing value for field `{field}` of struct {struct}"
  | divisionByZero => "Divide by zero error"
  | irregular cause =>
    s!"Interpretation can't continue with an irregular AST node: {cause.message}"
  | callDepthExceeded limit => s!"Maximum call depth of {limit} exceeded"
  | native name cause => s!"Native function {name} failed: {cause.message}"

end Scriptlet
