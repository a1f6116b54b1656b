import TemplateCode.CommandLine.Arguments

/-!
# Running the program

`Invocation.perform` carries out what the arguments ask for and gives the exit code.
-/

namespace TemplateCode

/-- How much is logged. -/
def logLevel (verbose : Bool) : String :=
  if verbose then "debug" else "warn"

/-- How the program ends. -/
structure Exit where
  code : UInt8 := 0
  /-- What is said about a failure. -/
  complaint : Option String := none
deriving DecidableEq, Repr

def programName : String := "plainmark"

def programVersion : String := "0.1.0"

/-- How the program is used. -/
def usage : String :=
  joinLines [
    "Usage: plainmark [OPTIONS] <COMMAND>",
    "",
    "Commands:",
    "  init      Write a default plainmark.toml in the current directory",
    "  strip     Print a template with comments, styles and scripts removed",
    "  generate  Generate analyzable code for a template [aliases: g]",
    "  trace     Print the order in which template nodes are visited",
    "  help      Print this message or the help of the given subcommand(s)",
    "",
    "Options:",
    "  -v, --verbose  Log generator activity to stderr",
    "  -h, --help     Print help",
    "  -V, --version  Print version"]

/-- The line that tells the version, of the program or of a subcommand. -/
def versionLine : Option Subcommand → String
  | some subcommand => programName ++ "-" ++ subcommand.name ++ " " ++ programVersion
  | none => programName ++ " " ++ programVersion

namespace Invocation

variable {m : Type → Type} [Monad m] [Host m]

/-- Carries out what is asked for. -/
def perform : Invocation → m Exit
  | run command _ => do
    match ← command.execute.run with
    | .ok () => return {}
    | .error failure => return ⟨1, some ("Error: " ++ failure.message)⟩
  | misuse => return ⟨2, some usage⟩
  | help => do
    Host.print (usage ++ "\n")
    return {}
  | version of => do
    Host.print (versionLine of ++ "\n")
    return {}

end Invocation

end TemplateCode
