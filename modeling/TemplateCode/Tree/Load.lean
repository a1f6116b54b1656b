import TemplateCode.Fault
import TemplateCode.Json.Reader
import TemplateCode.Tree.Node

/-!
# Loading a tree

A tree is given as JSON. A record with a type tag is a node; a field that holds a node, or a list of
nodes only, is a slot; fields of any other shape are ignored. A tree fits a source if every one of its
spans selects a text, those of expressions included.

* `Json.content` is what a value contributes to the node it is a field of.
* `Node.ofJson` loads a tree from a value, `Node.ofText` from a text.
* `Node.validate` checks that a tree fits a source.
-/

namespace TemplateCode

/-- The outcome of loading. -/
abbrev Loaded (α : Type) := Except Malformation α

/-- What a value is to the node that has it as a field. -/
inductive Content where
  | nothing
  | node (loaded : Loaded Node)
  | nodes (loaded : Loaded (List Node))

namespace Content

/-- Whether a value is a node, well-formed or not. -/
def node? : Content → Option (Loaded Node)
  | .node loaded => some loaded
  | _ => none

/-- The content of a list: nodes, if every item is one. -/
def ofItems (items : List Content) : Content :=
  match items.mapM node? with
  | some loaded => .nodes (loaded.mapM id)
  | none => .nothing

/-- The field of a node for a value under a key. -/
def field? (slot : Slot) : Content → Loaded (Option Field)
  | .nothing => return none
  | .node loaded => return some (.one slot (← loaded))
  | .nodes loaded => return some (.many slot (← loaded))

end Content

/-- The type tag of a record. -/
def typeTag? (fields : List (String × Json)) : Option String :=
  match fields.lookup "type" with
  | some (.text tag) => some tag
  | _ => none

/-- An end of the range of a node. -/
def loadBound (tag : String) (fields : List (String × Json)) (bound : Bound) : Loaded Nat :=
  match fields.lookup bound.key with
  | some (.natural offset) => return offset.toNat
  | _ => throw (.missing tag bound)

/-- The range of a node. Two nulls mark a node that is not in the source, with an empty range. -/
def loadSpan (tag : String) (fields : List (String × Json)) : Loaded Span := do
  match fields.lookup Bound.start.key, fields.lookup Bound.stop.key with
  | some .null, some .null => return {}
  | _, _ =>
    let start ← loadBound tag fields .start
    let stop ← loadBound tag fields .stop
    if stop < start then throw (.inverted tag start stop) else return ⟨start, stop⟩

/-- Adds what a field contributes to a node. -/
def loadField (node : Node) : String × Json × Content → Loaded Node
  | ("type", _, _) | ("start", _, _) | ("end", _, _) => return node
  | ("name", .text name, _) => return { node with name := some name }
  | ("skip", .bool skip, _) => return { node with skip }
  | (key, _, content) => do
    return { node with fields := node.fields ++ (← content.field? (.ofKey key)).toList }

/-- The node of a record with the given tag: its range comes before its fields, and these come in
document order. -/
def loadNode (tag : String) (fields : List (String × Json)) (contents : List (String × Json × Content)) :
    Loaded Node := do
  let span ← loadSpan tag fields
  contents.foldlM loadField { kind := .ofTag tag, span }

namespace Json

mutual

/-- What a value is to the node that has it as a field. -/
def content : Json → Content
  | .record fields =>
    match typeTag? fields with
    | some tag => .node (loadNode tag fields (fieldContents fields))
    | none => .nothing
  | .list items => .ofItems (itemContents items)
  | _ => .nothing

def itemContents : List Json → List Content
  | [] => []
  | item :: items => item.content :: itemContents items

def fieldContents : List (String × Json) → List (String × Json × Content)
  | [] => []
  | (key, value) :: fields => (key, value, value.content) :: fieldContents fields

end

end Json

namespace Node

/-- Loads a tree from a JSON value. -/
def ofJson (json : Json) : Loaded Node :=
  match json.content with
  | .node loaded => loaded
  | _ => throw .untyped

/-- Loads a tree from a JSON text. -/
def ofText (text : String) : Loaded Node := do
  let json ← (Json.ofText text).mapError .json
  ofJson json

/-- Checks every span of a tree against a source. The first node that does not fit, each before the
nodes of its fields, is reported. -/
def validate (root : Node) (source : String) : Except Fault Unit :=
  match root.preorder.find? fun node => (node.span.slice source).isNone with
  | some node => throw (.misfit node.kind node.span source.utf8ByteSize)
  | none => return ()

end Node

end TemplateCode
