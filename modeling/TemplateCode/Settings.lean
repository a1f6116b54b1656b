import TemplateCode.Path
import TemplateCode.Toml.Document
import TemplateCode.Toml.Quote

/-!
# Settings of a project

The settings of a project are kept in a TOML file at its root. Each has a default.

* `Settings.outputPath` is where the code for a template goes.
* `Settings.render` writes the settings file, `Settings.ofText` reads one.
-/

namespace TemplateCode

/-- What a project can choose. -/
structure Settings where
  /-- Whether comments, styles and scripts are cut out of a template first. -/
  stripTags : Bool := true
  /-- The directory for written code, seen from the root of the project. -/
  dir : Path := "target/plainmark"
  /-- The extension of written files. -/
  extension : String := "ts"
  /-- Whether code is written to `dir` if no other place is given. -/
  write : Bool := false
deriving DecidableEq, Inhabited, Repr

/-- The name of the settings file. -/
def settingsFile : String := "plainmark.toml"

/-- A single setting. -/
inductive Setting where
  | stripTags
  | dir
  | extension
  | write
deriving DecidableEq, Repr

namespace Setting

/-- The key of a setting. -/
def key : Setting → String
  | stripTags => "strip_tags"
  | dir => "dir"
  | extension => "extension"
  | write => "write"

/-- A part of the settings file. -/
structure Section where
  name : String
  settings : List Setting

def preprocess : Section := ⟨"preprocess", [stripTags]⟩

def output : Section := ⟨"output", [dir, extension, write]⟩

end Setting

namespace Settings

open Setting (Section)

/-- The name of the code for a template with a given stem. What is no text in the stem is replaced. -/
def outputName (settings : Settings) (stem : Segment) : Segment :=
  (Path.ofText (Utf8.decode stem ++ "." ++ settings.extension)).bytes

/-- The path of the code for a template in a project. A template without a file name lends its whole
path. -/
def outputPath (settings : Settings) (root input : Path) : Path :=
  (root.join settings.dir).join ⟨settings.outputName (input.fileStem?.getD input.bytes)⟩

/-! ## Writing -/

def truth (value : Bool) : String :=
  if value then "true" else "false"

/-- The value of a setting as it is written. -/
def written (settings : Settings) : Setting → String
  | .stripTags => truth settings.stripTags
  | .dir => Toml.quote settings.dir.text
  | .extension => Toml.quote settings.extension
  | .write => truth settings.write

/-- The line of a setting. -/
def line (settings : Settings) (setting : Setting) : String :=
  setting.key ++ " = " ++ settings.written setting ++ "\n"

/-- A part of the settings file with its lines. -/
def sectionText (settings : Settings) (part : Section) : String :=
  "[" ++ part.name ++ "]\n" ++ String.join (part.settings.map settings.line)

/-- The settings file. -/
def render (settings : Settings) : String :=
  "\n".intercalate ([Setting.preprocess, Setting.output].map settings.sectionText)

/-! ## Reading -/

/-- The entries of a part of the settings file. An array gives the settings of the part in order, and
a moment gives none. -/
def sectionEntries? (part : Section) : Toml.Item → Option Toml.Entries
  | .table _ entries => some entries
  | .array items => some ((part.settings.map Setting.key).zip items)
  | .tables elements =>
    some ((part.settings.map Setting.key).zip (elements.reverse.map (.table .header)))
  | .moment _ => some []
  | _ => none

/-- The settings that an entry chooses instead of those given. -/
def set? (settings : Settings) : Setting → Toml.Item → Option Settings
  | .stripTags, .boolean value => some { settings with stripTags := value }
  | .dir, .text value => some { settings with dir := value }
  | .extension, .text value => some { settings with extension := value }
  | .write, .boolean value => some { settings with write := value }
  | _, _ => none

/-- Reads a setting off the entries of its part. -/
def readSetting? (entries : Toml.Entries) (settings : Settings) (setting : Setting) :
    Option Settings :=
  match entries.lookup setting.key with
  | some item => settings.set? setting item
  | none => some settings

/-- Reads a part of a settings file. -/
def readSection? (entries : Toml.Entries) (settings : Settings) (part : Section) : Option Settings :=
  match entries.lookup part.name with
  | some item => do
    part.settings.foldlM (readSetting? (← sectionEntries? part item)) settings
  | none => some settings

/-- Reads a settings file. Settings that are not there have their defaults, and other entries are
ignored. -/
def ofText (text : String) : Option Settings := do
  let entries ← Toml.ofText text
  [Setting.preprocess, Setting.output].foldlM (readSection? entries) {}

end Settings

end TemplateCode
