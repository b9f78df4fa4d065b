import Covenant.Cli.Response

/-! The program: it reads the file that its arguments name, prints the answer and ends with
its exit code. -/

/-- What the system's word on a failed reading means. The number of an error may be negated. -/
def Covenant.Cli.FileError.ofSystem (e : IO.Error) : Covenant.Cli.FileError :=
  match e with
  | .noFileOrDirectory .. => .missing
  | .permissionDenied .. => .denied
  | .inappropriateType _ code _ => if min code (0 - code) = 20 then .notDirectory else .directory
  | .invalidArgument _ code _ => if min code (0 - code) = 36 then .nameTooLong else .other e.toString
  | e => .other e.toString

/-- The text of a file, or the reason why there is none. -/
def Covenant.Cli.readFile (path : String) : IO Covenant.Cli.FileContent := do
  try
    return Covenant.Cli.FileContent.ofBytes (← IO.FS.readBinFile path)
  catch
    | e => return .error (.ofSystem e)

def main (arguments : List String) : IO UInt32 := do
  let response ← Covenant.Cli.respond Covenant.Cli.readFile (← IO.getEnv "RUST_LOG") arguments
  (← IO.getStderr).putStr response.errorText
  (← IO.getStdout).putStr response.outputText
  return response.exit.toUInt32
