import TemplateCode.Project.Session

/-!
# Commands
-/

namespace TemplateCode

/-- What the program can be asked to do. -/
inductive Command where
  /-- Start a project in the working directory. -/
  | start
  /-- Print a template without comments, styles and scripts. -/
  | strip (file : Path)
  /-- Generate the code for a template. -/
  | generate (file tree : Path) (out : Option Path)
  /-- Print the listing of the tree of a template. -/
  | trace (file tree : Path)
deriving DecidableEq, Repr

namespace Command

variable {m : Type → Type} [Monad m] [Host m]

/-- Carries out a command. -/
def execute : Command → Task m Unit
  | start => do
    let _ ← startProject (← Host.workingDirectory)
  | strip file => do
    Host.print (Markup.strip (← readText file))
  | generate file tree out => do
    let _ ← (← findProject).generate file tree out
  | trace file tree => do
    Host.print ((← (← findProject).trace file tree) ++ "\n")

end Command

end TemplateCode
