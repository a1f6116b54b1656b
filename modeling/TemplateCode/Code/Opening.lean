import TemplateCode.Code.Buffer
import TemplateCode.Tree.Node

/-!
# What a node contributes

Each kind of node writes its own statements, or opens its own blocks, when it is entered. Expressions
are never analysed: their text is read off the source through a `Reading`.

* `opening` lists the operations for every kind but await blocks, whose branches are generated apart.
-/

namespace TemplateCode

/-- The text at a range of the source. -/
abbrev Reading := Span → String

/-- What a node can see of its parent: the kind, and the owner of the blocks that the parent opened. -/
structure Parent (ι : Type) where
  kind : Kind
  owner : ι

/-- The first text, or the second if the first is empty. -/
def orIfEmpty (text fallback : String) : String :=
  if text = "" then fallback else text

namespace Node

/-- The text of the first node in a slot, empty if there is none. -/
def textIn (read : Reading) (slot : Slot) (node : Node) : String :=
  match node.child? slot with
  | some part => read part.span
  | none => ""

/-- The text of the expression of a node. -/
def expression (read : Reading) (node : Node) : String :=
  node.textIn read .expression

/-- The names that a node makes visible to its content, in order. A directive with a pattern binds
the pattern, one without binds its own name. -/
def boundNames (read : Reading) (node : Node) : List String :=
  node.letDirectives.map fun directive => orIfEmpty (directive.expression read) directive.label

/-- The component that a node instantiates. One kind of component is named by an expression. -/
def component (read : Reading) (node : Node) : String :=
  if node.label = "svelte:component" then node.expression read else node.label

/-- The condition of a conditional class, which defaults to the variable of the same name. -/
def classCondition (read : Reading) (node : Node) : String :=
  orIfEmpty (node.expression read) node.label

/-- Whether an attribute puts the node into a slot of its parent component. -/
def isSlotted (node : Node) : Bool :=
  node.attributes.any fun part => part.label = "slot"

/-- Whether the only child of a node is a conditional block. -/
def holdsOnlyIf (node : Node) : Bool :=
  match node.children with
  | [only] => only.kind = .ifBlock
  | _ => false

end Node

/-- The place holder for the element that a directive is applied to. -/
def directiveTarget : String := "document.body"

/-- The geometry that is handed to an animation. -/
def animationRects : String :=
  "\x7b from: \x7b x: 0, y: 0, width: 0, height: 0 \x7d, to: \x7b x: 0, y: 0, width: 0, height: 0 \x7d \x7d"

/-- The call of a directive's function, with empty arguments left out. -/
def directiveCall (name : String) (arguments : List String) : String :=
  name ++ "(" ++ ", ".intercalate (directiveTarget :: arguments.filter (· ≠ "")) ++ ");"

variable {ι : Type}

/-- Opens a scope for the names that a node binds, if it binds any. -/
def bindingScope (read : Reading) (node : Node) (owner : ι) : List (Edit ι) :=
  match node.boundNames read with
  | [] => []
  | names => [.openScope names (some owner)]

/-- A conditional block. If it goes on a chain of conditions, the branch before it is closed first. -/
def ifBlock (read : Reading) (node : Node) (owner : ι) (chained : Bool) : List (Edit ι) :=
  let condition := node.expression read
  if chained then
    [.close none, .openBlock ("else if (" ++ condition ++ ")") (some owner)]
  else
    [.openBlock ("if (" ++ condition ++ ")") (some owner)]

/-- An alternative branch. It adds nothing if all it holds is a further condition of the block above.
After a loop it closes the guard of the loop too. -/
def elseBlock (node : Node) (owner : ι) (parent : Option Kind) : List (Edit ι) :=
  if parent = some .ifBlock && node.holdsOnlyIf then
    []
  else
    .close none :: (if parent = some .eachBlock then [.close none] else []) ++
      [.openBlock "else" (some owner)]

/-- A loop, inside a guard if there is a branch for the empty case. -/
def eachBlock (read : Reading) (node : Node) (owner : ι) : List (Edit ι) :=
  let iterable := node.expression read
  let guard :=
    if (node.field? .elseBranch).isSome then [.openBlock ("if (" ++ iterable ++ ")") (some owner)]
    else []
  guard ++
    [.openBlock ("for (const " ++ node.textIn read .context ++ " of " ++ iterable ++ ")") (some owner)]

/-- The operations with which a node begins. `owner` owns the blocks it opens, `chained` says whether
it goes on the chain of conditions of its parent. -/
def opening (read : Reading) (node : Node) (owner : ι) (parent : Option Kind) (chained : Bool) :
    List (Edit ι) :=
  match node.kind with
  | .inlineComponent =>
    .append ("new " ++ node.component read ++ "();") :: bindingScope read node owner
  | .element => if node.isSlotted then bindingScope read node owner else []
  | .slotTemplate => bindingScope read node owner
  | .ifBlock => ifBlock read node owner chained
  | .elseBlock => elseBlock node owner parent
  | .eachBlock => eachBlock read node owner
  | .keyBlock => [.openBlock ("/*key*/ if (" ++ node.expression read ++ ")") (some owner)]
  | .mustacheTag | .rawMustacheTag | .attributeShorthand | .binding | .eventHandler =>
    [.declare (node.expression read)]
  | .spread =>
    let spread := node.expression read
    if spread = "" then [] else [.declare ("\x7b ..." ++ spread ++ " \x7d")]
  | .debugTag => (node.nodesIn .identifiers).map fun identifier => .declare identifier.label
  | .classDirective =>
    [.declare (node.classCondition read ++ " ? '" ++ node.label ++ "' : null")]
  | .action | .transition => [.append (directiveCall node.label [node.expression read])]
  | .animation => [.append (directiveCall node.label [animationRects, node.expression read])]
  | _ => []

end TemplateCode
