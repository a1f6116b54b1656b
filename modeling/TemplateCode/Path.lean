import TemplateCode.Encoding

/-!
# Paths

Paths are bytes, with a slash between their segments. Most are the bytes of a text, but they need not
be. Nothing is normalised: a path keeps its spelling, and the parent of a path is spelled with the
beginning of it.

* `Path.ofText` is the path of a text, `Path.text` the text that is shown for a path.
* `Path.view` splits a path into where it starts and the segments after that.
* `Path.join`, `Path.fileStem?`, `Path.parent?`, `Path.ancestors` are the usual operations.
-/

namespace TemplateCode

structure Path where
  bytes : List UInt8
deriving DecidableEq, Inhabited, Repr

/-- A part of a path, without slashes. -/
abbrev Segment := List UInt8

namespace Path

/-- The path of a text. -/
def ofText (text : String) : Path :=
  ⟨Utf8.encode text.toList⟩

instance : Coe String Path := ⟨ofText⟩

/-- The text that is shown for a path. -/
def text (path : Path) : String :=
  Utf8.decode path.bytes

/-- Whether a path is that of a text. -/
def isText (path : Path) : Bool :=
  ofText path.text = path

def isEmpty (path : Path) : Bool :=
  path.bytes.isEmpty

/-- The byte between segments. -/
def slash : UInt8 := 0x2F

/-- The byte before an extension. -/
def dot : UInt8 := 0x2E

/-- The segment that stays where it is. -/
def here : Segment := [dot]

/-- The segment that leads to the parent. -/
def up : Segment := [dot, dot]

/-- The segments of a path: what stands between slashes, with empty segments. -/
def segments (bytes : List UInt8) : List Segment :=
  bytes.splitOn slash

/-- Segments with slashes between them. -/
def unite (segments : List Segment) : List UInt8 :=
  [slash].intercalate segments

/-- Where a path starts. -/
inductive Anchor where
  /-- At the root of the file system. -/
  | root
  /-- At the working directory, by a first segment `.`. -/
  | here
  /-- At the working directory. -/
  | none
deriving DecidableEq, Repr

/-- Where the path of some segments starts. -/
def anchorOf : List Segment → Anchor
  | [] => .none
  | first :: rest =>
    if first = [] ∧ rest ≠ [] then .root else if first = here then .here else .none

/-- A path in two parts. -/
structure View where
  anchor : Anchor
  body : List Segment

/-- Splits segments into where their path starts and what comes after that. -/
def viewOf (segments : List Segment) : View :=
  match anchorOf segments with
  | .none => ⟨.none, segments⟩
  | anchor => ⟨anchor, segments.tail⟩

/-- Splits a path into where it starts and the segments after that. -/
def view (path : Path) : View :=
  viewOf (segments path.bytes)

namespace View

/-- The path that a view is of. -/
def path (view : View) : Path :=
  match view.anchor with
  | .root => ⟨slash :: unite view.body⟩
  | .here => ⟨unite (Path.here :: view.body)⟩
  | .none => ⟨unite view.body⟩

end View

/-- Whether a segment stays where it is. -/
def isIdle (segment : Segment) : Bool :=
  segment = [] || segment = here

/-- Segments without the idle ones at the end. -/
def settle (body : List Segment) : List Segment :=
  (body.reverse.dropWhile isIdle).reverse

/-- The path up to its last step. The root and the empty path have none. -/
def parent? (path : Path) : Option Path :=
  let view := path.view
  match settle view.body with
  | [] =>
    match view.anchor with
    | .here => some ⟨[]⟩
    | _ => none
  | first :: rest => some { view with body := settle (first :: rest).dropLast }.path

/-- A path and its parents, as far as `bound` allows. -/
def ancestorsWithin : (bound : Nat) → Path → List Path
  | 0, _ => []
  | bound + 1, path =>
    path ::
      match path.parent? with
      | some parent => ancestorsWithin bound parent
      | none => []

/-- A path, its parent, the parent of that, and so on. Each is shorter than the one before. -/
def ancestors (path : Path) : List Path :=
  ancestorsWithin (path.bytes.length + 1) path

/-- The last segment of a path, if it names something. -/
def fileName? (path : Path) : Option Segment :=
  match (settle path.view.body).getLast? with
  | some name => if name = up then none else some name
  | none => none

/-- A file name without its extension. A dot at the beginning starts no extension. -/
def stemOf (name : Segment) : Segment :=
  match (name.reverse.dropWhile (· ≠ dot)).tail.reverse with
  | [] => name
  | stem => stem

/-- The file name of a path without its extension. -/
def fileStem? (path : Path) : Option Segment :=
  path.fileName?.map stemOf

/-- A path seen from another one. A path from the root stays as it is. -/
def join (base path : Path) : Path :=
  if path.bytes.head? = some slash then path
  else if base.isEmpty || base.bytes.getLast? = some slash then ⟨base.bytes ++ path.bytes⟩
  else ⟨base.bytes ++ slash :: path.bytes⟩

end Path

end TemplateCode
