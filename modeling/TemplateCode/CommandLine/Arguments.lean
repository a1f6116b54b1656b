import TemplateCode.Project.Command

/-!
# Arguments

The arguments of the program name a subcommand, with options before and after it. They are looked at
from left to right, and the first thing that decides the matter does: a fault, or a question for
help or for the version.

* `Invocation.ofArguments` says what the arguments ask for.
-/

namespace TemplateCode

inductive Subcommand where
  | start
  | strip
  | generate
  | trace
deriving DecidableEq, Repr

namespace Subcommand

def name : Subcommand → String
  | start => "init"
  | strip => "strip"
  | generate => "generate"
  | trace => "trace"

/-- The subcommand of a name, or of the short form of one. -/
def ofName? : String → Option Subcommand
  | "init" => some start
  | "strip" => some strip
  | "generate" | "g" => some generate
  | "trace" => some trace
  | _ => none

/-- Whether a subcommand works on a template. -/
def takesFile : Subcommand → Bool
  | start => false
  | _ => true

/-- Whether a subcommand works on a tree. -/
def takesTree : Subcommand → Bool
  | generate | trace => true
  | _ => false

/-- Whether a subcommand can be told where to write. -/
def takesOut : Subcommand → Bool
  | generate => true
  | _ => false

end Subcommand

/-- What is given to a subcommand. -/
structure Given where
  verbose : Bool := false
  file : Option String := none
  tree : Option String := none
  out : Option String := none
deriving DecidableEq, Repr

/-- Why the arguments are not looked at any further. -/
inductive Halt where
  | misuse
  | help
  | version
deriving DecidableEq, Repr

/-- What the arguments ask for. -/
inductive Invocation where
  | run (command : Command) (verbose : Bool)
  | misuse
  | help
  /-- The version of the program, asked of the program or of a subcommand. -/
  | version (of : Option Subcommand)
deriving DecidableEq, Repr

/-- Takes a value for something that is given at most once. A value is never empty. -/
def once (old : Option String) (value : String) : Except Halt (Option String) :=
  if value = "" || old.isSome then .error .misuse else .ok (some value)

namespace Given

/-- Takes the switch for logging. -/
def setVerbose (given : Given) : Except Halt Given :=
  if given.verbose then .error .misuse else .ok { given with verbose := true }

def setTree (given : Given) (value : String) : Except Halt Given := do
  return { given with tree := ← once given.tree value }

def setOut (given : Given) (value : String) : Except Halt Given := do
  return { given with out := ← once given.out value }

/-- Takes an argument that is no option. -/
def setFile (subcommand : Subcommand) (given : Given) (value : String) : Except Halt Given := do
  if subcommand.takesFile then
    return { given with file := ← once given.file value }
  else
    throw .misuse

/-- Takes arguments that are no options, whatever they look like. -/
def setFiles (subcommand : Subcommand) (given : Given) (values : List String) : Except Halt Given :=
  values.foldlM (setFile subcommand) given

/-- The command that a subcommand comes to with what is given. -/
def command? (given : Given) : Subcommand → Option Command
  | .start => some .start
  | .strip => return .strip (← given.file)
  | .generate => return .generate (← given.file) (← given.tree) (given.out.map Path.ofText)
  | .trace => return .trace (← given.file) (← given.tree)

end Given

/-- Whether an argument has the form of an option. -/
def isOption (argument : List Char) : Bool :=
  match argument with
  | '-' :: _ :: _ => true
  | _ => false

/-- The name and the value of a long option, without the dashes. -/
def splitOption (option : List Char) : String × Option String :=
  let name := option.takeWhile (· ≠ '=')
  match option.dropWhile (· ≠ '=') with
  | [] => (String.ofList name, none)
  | _ :: value => (String.ofList name, some (String.ofList value))

/-- The setter of an option that takes a value. -/
abbrev Setter := Given → String → Except Halt Given

/-- A long option: what is given with it, or the setter that takes the next argument as its value. -/
def longOption (subcommand : Subcommand) (given : Given) (option : List Char) :
    Except Halt (Given ⊕ Setter) :=
  let withValue (setter : Setter) (value : Option String) : Except Halt (Given ⊕ Setter) :=
    match value with
    | some value => .inl <$> setter given value
    | none => .ok (.inr setter)
  match splitOption option with
  | ("verbose", none) => .inl <$> given.setVerbose
  | ("help", none) => .error .help
  | ("version", none) => .error .version
  | ("ast", value) => if subcommand.takesTree then withValue Given.setTree value else .error .misuse
  | ("out", value) => if subcommand.takesOut then withValue Given.setOut value else .error .misuse
  | _ => .error .misuse

/-- Short options in one argument. The last may take the rest of it, or the next argument, as its
value. -/
def shortOptions (subcommand : Subcommand) (given : Given) : List Char → Except Halt (Given ⊕ Setter)
  | [] => .ok (.inl given)
  | 'v' :: options => do
    shortOptions subcommand (← given.setVerbose) options
  | 'h' :: _ => .error .help
  | 'V' :: _ => .error .version
  | 'o' :: value =>
    if subcommand.takesOut then
      match value with
      | [] => .ok (.inr Given.setOut)
      | '=' :: value => .inl <$> given.setOut (String.ofList value)
      | value => .inl <$> given.setOut (String.ofList value)
    else
      .error .misuse
  | _ => .error .misuse

/-- Takes the arguments after a subcommand. `setter` is that of an option that still needs its
value. -/
def scan (subcommand : Subcommand) : Given → (setter : Option Setter) → List String →
    Except Halt Given
  | given, none, [] => .ok given
  | _, some _, [] => .error .misuse
  | given, some setter, argument :: arguments => do
    if isOption argument.toList then
      throw .misuse
    scan subcommand (← setter given argument) none arguments
  | given, none, argument :: arguments => do
    let proceed : Given ⊕ Setter → Except Halt Given
      | .inl given => scan subcommand given none arguments
      | .inr setter => scan subcommand given (some setter) arguments
    match argument.toList with
    | ['-', '-'] => given.setFiles subcommand arguments
    | '-' :: '-' :: option => proceed (← longOption subcommand given option)
    | '-' :: c :: options => proceed (← shortOptions subcommand given (c :: options))
    | _ => scan subcommand (← given.setFile subcommand argument) none arguments

namespace Invocation

/-- What a halt comes to, for the program or for a subcommand. -/
def ofHalt (subcommand : Option Subcommand) : Halt → Invocation
  | .misuse => misuse
  | .help => help
  | .version => version subcommand

/-- What a subcommand and the arguments after it ask for. -/
def ofSubcommand (subcommand : Subcommand) (verbose : Bool) (arguments : List String) : Invocation :=
  match scan subcommand {} none arguments with
  | .ok given =>
    match given.command? subcommand with
    | some command => run command (verbose || given.verbose)
    | none => misuse
  | .error halt => ofHalt (some subcommand) halt

/-- What is asked for by the subcommand for help. -/
def ofHelp : List String → Invocation
  | [] => help
  | [name] => if (Subcommand.ofName? name).isSome || name = "help" then help else misuse
  | _ => misuse

/-- Options before the subcommand, of which there are only switches: whether logging is wanted. -/
def switches (verbose : Bool) : List Char → Except Halt Bool
  | [] => .ok verbose
  | 'v' :: options => if verbose then .error .misuse else switches true options
  | 'h' :: _ => .error .help
  | 'V' :: _ => .error .version
  | _ => .error .misuse

/-- A long option before the subcommand. -/
def longSwitch (verbose : Bool) (option : List Char) : Except Halt Bool :=
  match String.ofList option with
  | "verbose" => switches verbose ['v']
  | "help" => .error .help
  | "version" => .error .version
  | _ => .error .misuse

/-- What the arguments ask for, given whether logging is wanted already. -/
def ofRest (verbose : Bool) : List String → Invocation
  | [] => misuse
  | argument :: arguments =>
    match Subcommand.ofName? argument with
    | some subcommand => ofSubcommand subcommand verbose arguments
    | none =>
      if argument = "help" then
        ofHelp arguments
      else
        let switched : Except Halt Bool :=
          match argument.toList with
          | ['-', '-'] => .error .misuse
          | '-' :: '-' :: option => longSwitch verbose option
          | '-' :: c :: options => switches verbose (c :: options)
          | _ => .error .misuse
        match switched with
        | .ok verbose => ofRest verbose arguments
        | .error halt => ofHalt none halt

/-- What the arguments of the program ask for. -/
def ofArguments (arguments : List String) : Invocation :=
  ofRest false arguments

end Invocation

end TemplateCode
