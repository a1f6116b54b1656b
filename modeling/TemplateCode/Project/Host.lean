import TemplateCode.Disk

/-!
# What commands run on

Commands read and write files, print, and report what they have done. A `Host` is a monad in which
they can do so.

* `Machine` is a host that is a value: a file system, a working directory, and what was printed.
-/

namespace TemplateCode

/-- What a command reports when it has done something. -/
inductive Status where
  | created (path : Path)
  | generated (path : Path)
  | finished (path : Path)
deriving DecidableEq, Repr

/-- A word in a column of the given width, at its right end. -/
def alignRight (width : Nat) (word : String) : String :=
  String.ofList (List.replicate (width - word.length) ' ') ++ word

/-- A report as it is printed. `elapsed` is the time that the command took. -/
def Status.render (elapsed : String) : Status → String
  | created path => alignRight 12 "Created" ++ " " ++ path.text
  | generated path => alignRight 12 "Generated" ++ " " ++ path.text
  | finished path => alignRight 12 "Finished" ++ " " ++ path.text ++ " in " ++ elapsed

/-- A monad in which commands can run. -/
class Host (m : Type → Type) where
  /-- The working directory, as a path from the root. -/
  workingDirectory : m Path
  /-- The content of a file, if it can be read. -/
  read : Path → m (Option ByteArray)
  isFile : Path → m Bool
  /-- Whether there is anything at a path. -/
  isPresent : Path → m Bool
  /-- Writes a file, and says whether that worked. -/
  write : Path → ByteArray → m Bool
  /-- Makes a directory and those above it, and says whether it is there in the end. -/
  createDirectories : Path → m Bool
  print : String → m Unit
  report : Status → m Unit

/-- What may fail can do what its host can do. -/
instance {ε : Type} {m : Type → Type} [Monad m] [Host m] : Host (ExceptT ε m) where
  workingDirectory := ExceptT.lift Host.workingDirectory
  read path := ExceptT.lift (Host.read path)
  isFile path := ExceptT.lift (Host.isFile path)
  isPresent path := ExceptT.lift (Host.isPresent path)
  write path content := ExceptT.lift (Host.write path content)
  createDirectories path := ExceptT.lift (Host.createDirectories path)
  print text := ExceptT.lift (Host.print text)
  report status := ExceptT.lift (Host.report status)

/-- A file system, a working directory, and what was printed and reported. -/
structure Machine where
  disk : Disk := {}
  here : Location := []
  printed : String := ""
  reports : List Status := []

namespace Machine

/-- Changes the file system. -/
def update {α : Type} (change : Disk → Location → α × Disk) : StateM Machine α :=
  modifyGet fun machine =>
    let (result, disk) := change machine.disk machine.here
    (result, { machine with disk })

instance : Host (StateM Machine) where
  workingDirectory := return Disk.spell (← get).here
  read path := return (← get).disk.read (← get).here path
  isFile path := return (← get).disk.isFile (← get).here path
  isPresent path := return ((← get).disk.find? (← get).here path).isSome
  write path content := update fun disk here => disk.write here path content
  createDirectories path := update fun disk here => disk.createDirectories here path
  print text := modify fun machine => { machine with printed := machine.printed ++ text }
  report status := modify fun machine => { machine with reports := machine.reports ++ [status] }

end Machine

end TemplateCode
