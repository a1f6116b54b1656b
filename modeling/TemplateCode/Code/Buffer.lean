import TemplateCode.Code.Line

/-!
# Code under construction

A `Code` has the lines written so far, a stack of open blocks, and a counter for synthetic names.
The level of indentation is the height of the stack. A block may have an owner, who can close it as
long as it is the innermost one.

* `Code.append`, `Code.declare`, `Code.openBlock`, `Code.openScope`, `Code.closeInnermost`,
  `Code.closeOwned`, `Code.splice` are the operations.
* `Edit` lists the operations as data, `Code.apply` carries one out.
* `Code.lines_write` and `Code.lines_splice` say what is added to the lines; no operation changes them
  in any other way.
-/

namespace TemplateCode

/-- Code under construction, whose blocks have owners in `ι`. -/
structure Code (ι : Type) where
  /-- The lines so far, the last one first. -/
  written : List Line := []
  /-- The owners of the open blocks, innermost first. -/
  frames : List (Option ι) := []
  /-- The number of the next synthetic name. Counting goes on at zero after the largest number of 64
  bits. -/
  counter : UInt64 := 0

namespace Code

variable {ι : Type}

/-- Nothing written yet, names counted from `seed`. -/
def start (seed : UInt64) : Code ι :=
  { counter := seed }

/-- The lines so far. -/
def lines (code : Code ι) : List Line :=
  code.written.reverse

/-- The number of open blocks. -/
def level (code : Code ι) : Nat :=
  code.frames.length

/-- Writes a line at the current level. An empty text is dropped. -/
def write (role : Role) (text : String) (code : Code ι) : Code ι :=
  if text = "" then code else { code with written := ⟨role, code.level, text⟩ :: code.written }

theorem lines_write (role : Role) (text : String) (code : Code ι) :
    (code.write role text).lines =
      code.lines ++ if text = "" then [] else [⟨role, code.level, text⟩] := by
  by_cases h : text = "" <;> simp [write, lines, h]

/-- Writes a statement. -/
def append (text : String) (code : Code ι) : Code ι :=
  code.write .plain text

/-- The synthetic name that comes next, with the given stem. -/
def nextName (stem : String) (code : Code ι) : String :=
  stem ++ "$$" ++ Nat.repr code.counter.toNat

/-- Goes on to the next synthetic name. -/
def count (code : Code ι) : Code ι :=
  { code with counter := code.counter + 1 }

/-- Declares a synthetic variable for a value that is read. An empty initializer is dropped. -/
def declare (initializer : String) (code : Code ι) : Code ι :=
  if initializer = "" then
    code
  else
    code.count.write .declaration ("let " ++ code.nextName "var" ++ " = " ++ initializer ++ ";")

/-- Writes a line that ends in an opening brace, and opens a block. -/
def openWith (role : Role) (header : String) (owner : Option ι) (code : Code ι) : Code ι :=
  let written := code.write role (header ++ " \x7b")
  { written with frames := owner :: written.frames }

/-- Writes the head of a block and opens the block. -/
def openBlock (header : String) (owner : Option ι) (code : Code ι) : Code ι :=
  code.openWith .opener header owner

/-- Opens the body of a synthetic function, whose parameters stand for names that become visible. -/
def openScope (params : List String) (owner : Option ι) (code : Code ι) : Code ι :=
  code.count.openWith .scope
    ("function " ++ code.nextName "fn" ++ "(" ++ ", ".intercalate params ++ ")") owner

/-- Closes the innermost block, if one is open. -/
def closeInnermost (code : Code ι) : Code ι :=
  match code.frames with
  | [] => code
  | _ :: outer => { code with frames := outer }.write .closer "\x7d"

/-- Closes the blocks of an owner from the innermost outwards, up to the first block that is not
theirs. -/
def closeOwned [DecidableEq ι] (owner : ι) (code : Code ι) : Code ι :=
  (code.frames.takeWhile fun frame => frame = some owner).foldl (fun code _ => code.closeInnermost)
    code

/-- Whether some open block has the given owner. -/
def owns [DecidableEq ι] (owner : ι) (code : Code ι) : Bool :=
  code.frames.any fun frame => frame = some owner

/-- Writes the lines of a fragment at the current level, empty ones left out, and counts names on
from it. -/
def splice (fragment : Fragment) (code : Code ι) : Code ι :=
  { code with
    written :=
      ((fragment.lines.filter fun line => !line.isEmpty).map (Line.nest code.level)).reverse ++
        code.written
    counter := max code.counter fragment.next }

theorem lines_splice (fragment : Fragment) (code : Code ι) :
    (code.splice fragment).lines =
      code.lines ++
        (fragment.lines.filter fun line => !line.isEmpty).map (Line.nest code.level) := by
  simp [splice, lines]

/-- What has been written. -/
def fragment (code : Code ι) : Fragment :=
  ⟨code.lines, code.counter⟩

/-- What has been written, as a text. -/
def render (code : Code ι) : String :=
  code.fragment.text

end Code

/-- An operation on code under construction. -/
inductive Edit (ι : Type) where
  | append (text : String)
  | declare (initializer : String)
  | openBlock (header : String) (owner : Option ι)
  | openScope (params : List String) (owner : Option ι)
  /-- Closes the innermost block, or, for an owner, the innermost blocks that are theirs. -/
  | close (owner : Option ι)
  | splice (fragment : Fragment)
deriving DecidableEq, Repr

namespace Code

variable {ι : Type} [DecidableEq ι]

def apply (code : Code ι) : Edit ι → Code ι
  | .append text => code.append text
  | .declare initializer => code.declare initializer
  | .openBlock header owner => code.openBlock header owner
  | .openScope params owner => code.openScope params owner
  | .close none => code.closeInnermost
  | .close (some owner) => code.closeOwned owner
  | .splice fragment => code.splice fragment

/-- Carries out several operations in order. -/
def applyAll (code : Code ι) (edits : List (Edit ι)) : Code ι :=
  edits.foldl apply code

end Code

end TemplateCode
