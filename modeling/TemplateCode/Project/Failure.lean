import TemplateCode.Settings

/-!
# Failures of commands
-/

namespace TemplateCode

/-- Why a command fails. -/
inductive Failure where
  /-- A file is not there or is no text. -/
  | unreadable (path : Path)
  /-- A settings file is not understood. -/
  | unparsable (path : Path)
  | unwritable (path : Path)
  /-- Settings cannot be put into a file. -/
  | unserializable
  /-- A directory cannot be made. -/
  | uncreatable (path : Path)
  /-- The tree of a template cannot be loaded. -/
  | rejected
  /-- The tree does not fit the template of the given name. -/
  | mismatched (name : String)
  /-- A directory has a settings file already. -/
  | settled (dir : Path)
deriving DecidableEq, Repr

def Failure.message : Failure → String
  | unreadable path => "Failed to read " ++ path.text
  | unparsable path => "Failed to parse " ++ path.text
  | unwritable path => "Failed to write " ++ path.text
  | unserializable => "Failed to serialize configuration"
  | uncreatable path => "Failed to create " ++ path.text
  | rejected => "Loading the template tree failed"
  | mismatched name => "Template tree does not match " ++ name
  | settled dir => settingsFile ++ " already exists in " ++ dir.text

end TemplateCode
