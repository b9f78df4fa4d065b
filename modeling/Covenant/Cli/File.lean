/-! Files as the program reads them: a text, or the reason why there is none. -/

namespace Covenant.Cli

/-- Why a file cannot be read. -/
inductive FileError
  | missing
  | denied
  | notDirectory
  | directory
  | nameTooLong
  | notText
  | other (message : String)

namespace FileError

def message : FileError → String
  | missing => "No such file or directory (os error 2)"
  | denied => "Permission denied (os error 13)"
  | notDirectory => "Not a directory (os error 20)"
  | directory => "Is a directory (os error 21)"
  | nameTooLong => "File name too long (os error 36)"
  | notText => "stream did not contain valid UTF-8"
  | other message => message

end FileError

abbrev FileContent := Except FileError String

/-- The text in the bytes of a file. -/
def FileContent.ofBytes (bytes : ByteArray) : FileContent :=
  match String.fromUTF8? bytes with
  | some text => .ok text
  | none => .error .notText

end Covenant.Cli
