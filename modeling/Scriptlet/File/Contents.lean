namespace Scriptlet.File

inductive ReadError where
  | missing
  | denied
  | notDirectory
  | isDirectory
  | nameTooLong
  /-- The bytes are there, but they spell no text. -/
  | notText
  | other (reason : String)
  deriving DecidableEq, Repr

def ReadError.message : ReadError → String
  | missing => "No such file or directory (os error 2)"
  | denied => "Permission denied (os error 13)"
  | notDirectory => "Not a directory (os error 20)"
  | isDirectory => "Is a directory (os error 21)"
  | nameTooLong => "File name too long (os error 36)"
  | notText => "stream did not contain valid UTF-8"
  | other reason => reason

/-- The bytes of a file, or the reason why there are none. -/
abbrev Contents := Except ReadError ByteArray

def decode (bytes : ByteArray) : Except ReadError String :=
  match String.fromUTF8? bytes with
  | some text => .ok text
  | none => .error .notText

def Contents.text (contents : Contents) : Except ReadError String :=
  contents.bind decode

end Scriptlet.File
