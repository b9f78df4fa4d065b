import Covenant.Cli.Arguments
import Covenant.Cli.File
import Covenant.Journal.Filter
import Covenant.Manifest.Run

/-! What the program answers: an exit code, and what it prints on its two outputs. The code is
0 when a manifest is valid or its run succeeds, 1 when it is not or does not, and 2 when the
program is misused. -/

namespace Covenant.Cli

structure Response where
  exit : Nat
  output : List String
  errors : List String

def usageText : List String :=
  ["Usage: dbc [-q|--quiet] [-v|--verbose]... <validate|run|hash|version>",
   "  validate [--json] <file>",
   "  run [--json] [--args <array>]... [--on-violation <raise|return>] <file>",
   "  hash <file>"]

def misuse : Response := ⟨2, [], usageText⟩

def showVersion : Response := ⟨0, ["dbc 0.1.0"], []⟩

def errorLine (message : String) : String := "error: " ++ message

/-- The file that a command reads. -/
def Command.file? : Command → Option String
  | validate file _ | run file _ _ _ | hash file => some file
  | version => none

def unreadable (file : String) (reason : FileError) : Response :=
  ⟨2, [], [errorLine s!"cannot read {file}: {reason.message}"]⟩

/-! ### Validating -/

/-- The report of a validation, its names in order. -/
def validationReport (error : Option Error) : String :=
  let count : Int := if error.isSome then 1 else 0
  (Document.object
    [("errors", .integer count),
     ("messages", .array (error.toList.map fun e => .string e.message)),
     ("valid", .boolean error.isNone)]).pretty

def invalid (json : Bool) (e : Error) : Response :=
  ⟨1, if json then [validationReport (some e)] else [], [errorLine e.message]⟩

def validate (i : Invocation) (filter : Journal.Filter) (file : String) (json : Bool)
    (text : String) : Response :=
  match Manifest.load text none with
  | .error e => invalid json e
  | .ok c =>
    let output :=
      if json then [validationReport none] else if i.quiet then [] else [s!"✓ {file} is valid"]
    ⟨0, output, Journal.lines filter c.start.journal⟩

/-! ### Running -/

/-- The arguments of one call. The message about a text that is not JSON leaves out what the
decoder finds wrong with it, which would stand after a colon. -/
def callArguments (text : String) : Except String (List Value) :=
  match Json.parse? text with
  | some (.array items) => .ok (items.map Value.ofJson)
  | some other => .error ("--args must be a JSON array, found " ++ other.compact)
  | none => .error "--args is not valid JSON"

/-- One call without arguments where none are given. -/
def calls (texts : List String) : Except String (List (List Value)) := do
  let calls ← texts.mapM callArguments
  return if calls.isEmpty then [[]] else calls

/-- A deferred contract has arguments of its own, so those given only count calls. -/
def runCalls (c : Compiled) (given : Bool) (calls : List (List Value)) :
    Act State (Except RunError Report) := do
  match c.mode with
  | .direct => c.execute calls
  | .deferred _ _ => do
    if given then Act.note .argumentsIgnored
    c.executeDeferred calls.length

def recordLines (r : Record) : List String :=
  let arguments := ", ".intercalate (r.arguments.map Value.display)
  let label := s!"call #{r.index} ({arguments})"
  let first := match r.outcome with
    | .returned v => s!"  ✓ {label} → {v.display}"
    | .violated v => s!"  ✗ {label} → {v.kind.name} violated: {v.message}"
    | .failed e => s!"  ✗ {label} → failed: {e}"
  first :: r.changes.map fun ch => s!"      {ch.field} {ch.old.display} → {ch.new.display}"

def reportLines (r : Report) : List String :=
  let name := if r.name = "" then "manifest" else r.name
  let fields := r.finalState.map fun (name, v) => name ++ " = " ++ v.display
  s!"Running {name}" :: r.calls.flatMap recordLines ++
    ["State \x7b" ++ ", ".intercalate fields ++ "\x7d"]

def runResponse (quiet json : Bool) (log : List String) : Except RunError Report → Response
  | .error e => ⟨2, [], log ++ [errorLine (Error.run e).message]⟩
  | .ok r =>
    let output :=
      if json then [r.toDocument.pretty] else if quiet then [] else reportLines r
    ⟨if r.success then 0 else 1, output, log ++ r.error.toList.map errorLine⟩

/-- Everything wrong with the arguments of calls is found before the manifest is compiled, and
after it has been decoded. -/
def run (i : Invocation) (filter : Journal.Filter) (arguments : List String)
    (policy : Option Policy) (json : Bool) (text : String) : Response :=
  match Manifest.parse text with
  | .error e => invalid false (.manifest e)
  | .ok m =>
    match calls arguments with
    | .error message => ⟨2, [], [errorLine message]⟩
    | .ok calls =>
      match m.compile with
      | .error e => invalid false e
      | .ok c =>
        let c := policy.elim c c.withPolicy
        let (result, world) := runCalls c (!arguments.isEmpty) calls c.start
        runResponse i.quiet json (Journal.lines filter world.journal.reverse) result

def hash (text : String) : Response :=
  match Manifest.parse text with
  | .error e => invalid false (.manifest e)
  | .ok m => ⟨0, [m.fingerprint], []⟩

/-! ### Commands -/

def answer (i : Invocation) (filter : Journal.Filter) (content : FileContent) : Response :=
  match i.command, content with
  | .version, _ => ⟨0, ["dbc 0.1.0 (dbc-core 0.1.0)"], []⟩
  | .validate file _, .error reason | .run file _ _ _, .error reason | .hash file, .error reason =>
    unreadable file reason
  | .validate file json, .ok text => validate i filter file json text
  | .run _ arguments policy json, .ok text => run i filter arguments policy json text
  | .hash _, .ok text => hash text

/-- The answer to a list of arguments, with the files there are and the description of what is
to be logged. -/
def respond {m : Type → Type} [Monad m] (read : String → m FileContent)
    (log : Option String) (arguments : List String) : m Response := do
  match Request.ofArguments? arguments with
  | none => return misuse
  | some .showVersion => return showVersion
  | some (.invoke i) => do
    let content ← match i.command.file? with
      | some file => read file
      | none => pure (.ok "")
    return answer i (Journal.Filter.choose log i.verbosity) content

def Response.outputText (r : Response) : String := String.join (r.output.map (· ++ "\n"))

def Response.errorText (r : Response) : String := String.join (r.errors.map (· ++ "\n"))

end Covenant.Cli
