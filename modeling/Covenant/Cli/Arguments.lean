import Covenant.Manifest.Basic

/-! The arguments of the command line. An argument that starts with `-` is a switch, an option
with a value, or a misuse; `--` ends the switches. Short switches can be joined. Switches that
every command has may stand before the command too; those after it count for more. The help that
a program gives about itself is left out: `-h`, `--help` and the command `help`, after which it
would end well, are misuses here. -/

namespace Covenant.Cli

inductive Command
  | validate (file : String) (json : Bool)
  | run (file : String) (arguments : List String) (policy : Option Policy) (json : Bool)
  | hash (file : String)
  | version

structure Invocation where
  quiet : Bool
  verbosity : Nat
  command : Command

/-- What the program is asked to do. -/
inductive Request
  | showVersion
  | invoke (i : Invocation)

/-- One thing said on the command line. -/
inductive Item
  | switch (name : String)
  | value (option : String) (text : String)
  | operand (text : String)

/-- The options that take a value. -/
def valuedOptions : List String := ["args", "on-violation"]

/-- The long names of the short switches. -/
def longName (c : Char) : String :=
  match c with
  | 'q' => "quiet"
  | 'v' => "verbose"
  | 'V' => "version"
  | c => String.singleton c

def looksLikeSwitch (argument : String) : Bool :=
  match argument.toList with
  | '-' :: _ :: _ => true
  | _ => false

/-- The switches in an argument that starts with `-`; none where it has a value. -/
def switches? (argument : String) : Option (List Item) :=
  match argument.toList with
  | '-' :: '-' :: cs => if cs.contains '=' then none else some [.switch (String.ofList cs)]
  | '-' :: cs => some (cs.map fun c => .switch (longName c))
  | _ => none

/-- The option and the value that an argument joins by `=`. -/
def joined? (argument : String) : Option Item :=
  match argument.toList with
  | '-' :: '-' :: cs =>
    let name := String.ofList (cs.takeWhile (· ≠ '='))
    match cs.dropWhile (· ≠ '=') with
    | _ :: text =>
      if valuedOptions.contains name then some (.value name (String.ofList text)) else none
    | [] => none
  | _ => none

/-- The option that an argument names and that takes the next argument as its value. -/
def waiting? (argument : String) : Option String :=
  valuedOptions.find? fun option => argument = "--" ++ option

/-- The items after a command; none where an option lacks its value or a switch has one. -/
def items? : List String → Option (List Item)
  | [] => some []
  | argument :: rest =>
    if argument = "--" then some (rest.map .operand)
    else if !looksLikeSwitch argument then (items? rest).map (.operand argument :: ·)
    else
      match waiting? argument, rest with
      | some _, [] => none
      | some option, text :: rest =>
        if looksLikeSwitch text then none else (items? rest).map (.value option text :: ·)
      | none, rest =>
        match joined? argument with
        | some item => (items? rest).map (item :: ·)
        | none => do return (← switches? argument) ++ (← items? rest)

/-- How often each switch was given, and the values and operands in their order. -/
structure Given where
  quiet : Nat
  verbose : Nat
  json : Nat
  arguments : List String
  policies : List String
  operands : List String

namespace Given

/-- Nothing given yet. -/
def empty : Given := ⟨0, 0, 0, [], [], []⟩

/-- Takes one item more; a name that no command knows is refused. -/
def add? (g : Given) : Item → Option Given
  | .switch "quiet" => some { g with quiet := g.quiet + 1 }
  | .switch "verbose" => some { g with verbose := g.verbose + 1 }
  | .switch "json" => some { g with json := g.json + 1 }
  | .value "args" text => some { g with arguments := g.arguments ++ [text] }
  | .value "on-violation" text => some { g with policies := g.policies ++ [text] }
  | .operand text => some { g with operands := g.operands ++ [text] }
  | _ => none

/-- What was given; only `verbose` and `args` may come more than once. -/
def ofItems? (items : List Item) : Option Given := do
  let g ← items.foldlM add? empty
  if g.quiet ≤ 1 && g.json ≤ 1 && g.policies.length ≤ 1 then return g else none

/-- The one operand, which names a file. -/
def file? (g : Given) : Option String :=
  match g.operands with
  | [file] => if file = "" then none else some file
  | _ => none

/-- Nothing that only `run` takes. -/
def plain (g : Given) : Bool := g.arguments.isEmpty && g.policies.isEmpty

def policy? (g : Given) : Option (Option Policy) :=
  match g.policies with
  | [] => some none
  | name :: _ =>
    match Policy.ofName name with
    | .ok policy => some (some policy)
    | .error _ => none

def command? (g : Given) (name : String) : Option Command :=
  match name with
  | "validate" => do if g.plain then return .validate (← g.file?) (g.json = 1) else none
  | "run" => do return .run (← g.file?) g.arguments (← g.policy?) (g.json = 1)
  | "hash" => do if g.plain && g.json = 0 then return .hash (← g.file?) else none
  | "version" =>
    if g.plain && g.json = 0 && g.operands.isEmpty then some .version else none
  | _ => none

end Given

namespace Request

def isVersion : Item → Bool
  | .switch "version" => true
  | _ => false

/-- What may stand before a command. -/
def leading? (items : List Item) : Option Given := do
  let g ← Given.ofItems? items
  if g.plain && g.json = 0 && g.operands.isEmpty then return g else none

/-- The invocation of a command, after what stands before it. -/
def ofCommand? (before : List Item) (name : String) (rest : List String) : Option Request := do
  let before ← leading? before
  let after ← Given.ofItems? (← items? rest)
  let verbosity := if 0 < after.verbose then after.verbose else before.verbose
  return .invoke ⟨0 < before.quiet || 0 < after.quiet, verbosity, ← after.command? name⟩

/-- Reads the arguments up to a command, or to a switch that asks for the version. -/
def afterItems? (before : List Item) : List String → Option Request
  | [] => none
  | argument :: rest =>
    if looksLikeSwitch argument then
      match switches? argument with
      | none => none
      | some items =>
        let before := before ++ items.takeWhile fun i => !isVersion i
        if items.any isVersion then (leading? before).map fun _ => .showVersion
        else afterItems? before rest
    else ofCommand? before argument rest

/-- What a list of arguments asks for; none is a misuse. -/
def ofArguments? (arguments : List String) : Option Request := afterItems? [] arguments

end Request

end Covenant.Cli
