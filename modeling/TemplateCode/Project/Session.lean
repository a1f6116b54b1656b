import TemplateCode.Project.Host
import TemplateCode.Project.Pipeline

/-!
# Working on the templates of a project

A `Session` knows the root and the settings of a project.

* `Session.render` and `Session.trace` give the code and the listing of a template.
* `Session.generate` puts the code where it belongs.
* `nearestProject` finds the project that a directory is in, `findProject` the one that is worked in.
* `startProject` starts one.
-/

namespace TemplateCode

variable {m : Type → Type} [Monad m] [Host m]

/-- What a command does on a host. -/
abbrev Task (m : Type → Type) := ExceptT Failure m

/-- The text of a file. -/
def readText (path : Path) : Task m String := do
  match (← Host.read path).bind String.fromUTF8? with
  | some text => return text
  | none => throw (.unreadable path)

/-- Writes a text to a file. -/
def writeText (path : Path) (text : String) : Task m Unit := do
  if !(← Host.write path text.toUTF8) then
    throw (.unwritable path)

/-! ## Settings files -/

/-- Reads a settings file. -/
def loadSettings (path : Path) : Task m Settings := do
  match Settings.ofText (← readText path) with
  | some settings => return settings
  | none => throw (.unparsable path)

/-- Writes a settings file. A directory that is no text cannot be put into it. -/
def saveSettings (settings : Settings) (path : Path) : Task m Unit :=
  if settings.dir.isText then writeText path settings.render else throw .unserializable

/-- The first directory of a list that has a settings file. -/
def firstSettled : List Path → Task m (Option Path)
  | [] => return none
  | dir :: dirs => do
    if ← Host.isFile (dir.join settingsFile) then return some dir else firstSettled dirs

/-- The nearest directory, at or above the given one, that has a settings file. -/
def nearestProject (dir : Path) : Task m (Option Path) :=
  firstSettled dir.ancestors

/-- Writes the default settings into a directory that has none, and gives the path of the file. -/
def startProject (dir : Path) : Task m Path := do
  let path := dir.join settingsFile
  if ← Host.isPresent path then
    throw (.settled dir)
  saveSettings {} path
  Host.report (.created path)
  return path

/-! ## Sessions -/

/-- A project that is worked on. -/
structure Session where
  root : Path := ""
  settings : Settings := {}
deriving DecidableEq, Inhabited, Repr

/-- The project that the working directory is in. Outside of any project the working directory is
the root and the defaults apply. -/
def findProject : Task m Session := do
  let here ← Host.workingDirectory
  match ← nearestProject here with
  | some root => return { root, settings := ← loadSettings (root.join settingsFile) }
  | none => return { root := here }

namespace Session

/-- The code for a template, from the files of the template and of its tree. -/
def render (session : Session) (file tree : Path) : Task m String := do
  let markup ← readText file
  let json ← readText tree
  ExceptT.mk (return Pipeline.code session.settings markup json file.text)

/-- The listing of the tree of a template, from the files of the template and of its tree. -/
def trace (session : Session) (file tree : Path) : Task m String := do
  let markup ← readText file
  let json ← readText tree
  ExceptT.mk (return Pipeline.listing session.settings markup json file.text)

/-- Where the code for a template goes: to the given place, else to the output directory if the
settings say so, else nowhere. -/
def outputPath? (session : Session) (file : Path) (out : Option Path) : Option Path :=
  match out with
  | some path => some path
  | none =>
    if session.settings.write then some (session.settings.outputPath session.root file) else none

/-- Writes code to a file, with a line break at the end, in a directory that is made if need be. -/
def writeCode (path : Path) (code : String) : Task m Unit := do
  match path.parent? with
  | some parent =>
    if !parent.isEmpty then
      if !(← Host.createDirectories parent) then
        throw (.uncreatable parent)
  | none => pure ()
  writeText path (code ++ "\n")

/-- Generates the code for a template, and writes it to its place or prints it. -/
def generate (session : Session) (file tree : Path) (out : Option Path) :
    Task m (Option Path) := do
  let code ← session.render file tree
  let path? := session.outputPath? file out
  match path? with
  | some path =>
    writeCode path code
    Host.report (.generated path)
  | none => Host.print (code ++ "\n")
  Host.report (.finished file)
  return path?

end Session

end TemplateCode
