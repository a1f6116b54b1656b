/-!
# Lines

Generated code and listings indent by four columns per level.

A line of code is one statement, or the start or the end of a block. Its text may run over several
physical lines if the source of an expression does; only the first of them is indented.
-/

namespace TemplateCode

/-- Columns per level. -/
def indentWidth : Nat := 4

/-- The blanks in front of a line at a level. -/
def indentation (level : Nat) : String :=
  String.ofList (List.replicate (indentWidth * level) ' ')

/-- The text of several lines, with a line break between each two. -/
def joinLines (lines : List String) : String :=
  "\n".intercalate lines

/-! ## Lines of code -/

/-- The operation that wrote a line. -/
inductive Role where
  /-- A statement. -/
  | plain
  /-- The declaration of a synthetic variable. -/
  | declaration
  /-- The head of a block. -/
  | opener
  /-- The head of a synthetic function, whose body is a block. -/
  | scope
  /-- The end of a block. -/
  | closer
deriving DecidableEq, Repr

/-- A line of code: `depth` is its level of indentation. -/
structure Line where
  role : Role := .plain
  depth : Nat := 0
  text : String
deriving DecidableEq, Repr

namespace Line

/-- A line as it is printed. -/
def render (line : Line) : String :=
  indentation line.depth ++ line.text

/-- Whether nothing is printed for a line. -/
def isEmpty (line : Line) : Bool :=
  line.depth = 0 && line.text = ""

/-- A line moved further in. -/
def nest (level : Nat) (line : Line) : Line :=
  { line with depth := level + line.depth }

end Line

/-- The lines of one run, and the number at which the synthetic names of the next run start. -/
structure Fragment where
  lines : List Line := []
  next : UInt64 := 0
deriving DecidableEq, Repr

namespace Fragment

/-- A fragment of given texts, of which nothing is known but that each is a line. -/
def ofTexts (texts : List String) (next : UInt64) : Fragment :=
  ⟨texts.map fun text => { text }, next⟩

def texts (fragment : Fragment) : List String :=
  fragment.lines.map Line.render

def text (fragment : Fragment) : String :=
  joinLines fragment.texts

end Fragment

end TemplateCode
