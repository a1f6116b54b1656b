import TemplateCode.Code.Opening
import TemplateCode.Tree.Walk

/-!
# Code for a tree

The code for a tree is written along a walk: a node begins with its `opening`, its walked content
follows, and its blocks that are still innermost are closed when it is left. The branches of an await
block are not walked; each is generated by a run of its own and spliced in.

* `emit` is the effect of a node on code under construction. Blocks are owned by whatever `identify`
  makes of the position of a node.
* `Node.fragment` is the code for a whole tree, with names counted from a seed.
-/

namespace TemplateCode

variable {ι : Type}

/-- The effect of a node on code under construction, given its parent. -/
abbrev Emission (ι : Type) := Option (Parent ι) → Code ι → Code ι

namespace Emission

/-- The code of a run of its own, which sees no parent and no open block. -/
def run (emission : Emission ι) (seed : UInt64) : Fragment :=
  (emission none (Code.start seed)).fragment

/-- Generates the code of a branch apart and splices it in. -/
def spliceInto (emission : Emission ι) (code : Code ι) : Code ι :=
  code.splice (emission.run code.counter)

end Emission

/-- The meaning of the first node in the first field of a slot. -/
def firstIn {α : Type} (slot : Slot) (below : List (Slot × List α)) : Option α :=
  match below.find? fun (candidate, _) => candidate = slot with
  | some (_, meanings) => meanings.head?
  | none => none

/-- Splices a branch in, if there is one. -/
def spliceBranch (branch : Option (Emission ι)) (code : Code ι) : Code ι :=
  match branch with
  | some emission => emission.spliceInto code
  | none => code

/-- The statement that awaits the value of an await block. -/
def awaitStatement (read : Reading) (node : Node) : String :=
  let value := node.textIn read .value
  let promise := node.expression read
  if value = "" then "await " ++ promise ++ ";" else "const " ++ value ++ " = await " ++ promise ++ ";"

/-- The head of the block that handles a failure. -/
def catchHeader (read : Reading) (node : Node) : String :=
  let error := node.textIn read .error
  if error = "" then "catch" else "catch (" ++ error ++ ")"

/-- The meaning of the branch for a failure, unless the template leaves the branch out. -/
def catchBranch {α : Type} (node : Node) (below : List (Slot × List α)) : Option α :=
  match node.child? .catchBranch with
  | some branch => if branch.skip then none else firstIn .catchBranch below
  | none => none

/-- A step of an await block: an operation, or the place of a branch, which may be missing. -/
inductive AwaitStep (ι α : Type) where
  | edit (edit : Edit ι)
  | splice (branch : Option α)

/-- The steps of an await block: what is shown meanwhile, the awaited value and what uses it go into a
`try`, and what is shown on failure into the `catch` after it. -/
def awaitSteps {α : Type} (read : Reading) (node : Node) (below : List (Slot × List α)) :
    List (AwaitStep ι α) :=
  [.edit (.openBlock "try" none), .splice (firstIn .pending below),
    .edit (.append (awaitStatement read node)), .splice (firstIn .thenBranch below),
    .edit (.close none)] ++
  match catchBranch node below with
  | some branch =>
    [.edit (.openBlock (catchHeader read node) none), .splice (some branch), .edit (.close none)]
  | none => [.edit (.append "catch \x7b\x7d")]

variable [DecidableEq ι]

/-- Carries out a step of an await block. -/
def AwaitStep.run (code : Code ι) : AwaitStep ι (Emission ι) → Code ι
  | edit operation => code.apply operation
  | splice branch => spliceBranch branch code

/-- The code of an await block. -/
def awaitBlock (read : Reading) (node : Node) (below : List (Slot × List (Emission ι)))
    (code : Code ι) : Code ι :=
  (awaitSteps read node below).foldl AwaitStep.run code

/-- Whether a node goes on the chain of conditions of its parent: the parent is an alternative branch
that has opened no block of its own. -/
def isChained (parent : Option (Parent ι)) (code : Code ι) : Bool :=
  match parent with
  | some parent => parent.kind = .elseBlock && !code.owns parent.owner
  | none => false

/-- The code of the content that is walked, in order. -/
def emitContent (kind : Kind) (owner : ι) (below : List (Slot × List (Emission ι))) (code : Code ι) :
    Code ι :=
  (walked below).foldl (fun code (_, emission) => emission (some ⟨kind, owner⟩) code) code

/-- The effect of a node, given the effects of the nodes below. -/
def emitNode (read : Reading) (node : Node) (below : List (Slot × List (Emission ι))) (owner : ι) :
    Emission ι := fun parent code =>
  let written :=
    if node.kind = .awaitBlock then
      awaitBlock read node below code
    else
      emitContent node.kind owner below
        (code.applyAll
          (opening read node owner (parent.map Parent.kind) (isChained parent code)))
  written.closeOwned owner

/-- The effect of a tree at a position. -/
def emit (read : Reading) (identify : Position → ι) (root : Node) : Position → Emission ι :=
  root.fold fun node below here => emitNode read node (locate here below) (identify here)

namespace Node

/-- The code for a tree over a source, with names counted from `seed`. Blocks are owned by the
positions of the nodes that open them. -/
def fragment (source : String) (root : Node) (seed : UInt64) : Fragment :=
  (emit (Span.readIn source) id root []).run seed

/-- The code for a tree over a source, as a text. -/
def code (source : String) (root : Node) : String :=
  (root.fragment source 0).text

end Node

end TemplateCode
