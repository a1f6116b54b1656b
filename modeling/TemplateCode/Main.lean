import TemplateCode.CommandLine.Run

/-!
# The program

Runs the commands on the file system and the terminal at hand. The paths there are texts.
-/

namespace TemplateCode

/-- A run of the program, which knows when it started. -/
abbrev Shell := ReaderT Nat IO

namespace Shell

/-- Whether an action succeeds. -/
def succeeds (action : IO Unit) : Shell Bool :=
  try
    action
    return true
  catch _ =>
    return false

/-- A number of milliseconds in seconds, to two places. -/
def seconds (milliseconds : Nat) : String :=
  let hundredths := (milliseconds + 5) / 10
  let places := hundredths % 100
  Nat.repr (hundredths / 100) ++ "." ++ (if places < 10 then "0" else "") ++ Nat.repr places ++ "s"

instance : Host Shell where
  workingDirectory := return (← IO.currentDir).toString
  read path :=
    try
      return some (← IO.FS.readBinFile path.text)
    catch _ =>
      return none
  isFile path := succeeds do
    let _ ← IO.FS.readBinFile path.text
  isPresent path := succeeds do
    let _ ← IO.FS.Handle.mk path.text .read
  write path content := succeeds (IO.FS.writeBinFile path.text content)
  createDirectories path := succeeds (IO.FS.createDirAll path.text)
  print text := do
    (← IO.getStdout).putStr text
  report status := do
    let now ← IO.monoMsNow
    (← IO.getStderr).putStrLn (status.render (seconds (now - (← read))))

/-- Does what the arguments ask for, and gives the exit code. -/
def runArguments (arguments : List String) : IO UInt32 := do
  let perform : Shell Exit := (Invocation.ofArguments arguments).perform
  let exit ← perform.run (← IO.monoMsNow)
  if let some complaint := exit.complaint then
    (← IO.getStderr).putStrLn complaint
  return exit.code.toUInt32

end Shell

end TemplateCode

def main (arguments : List String) : IO UInt32 :=
  TemplateCode.Shell.runArguments arguments
