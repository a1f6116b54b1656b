import TemplateCode.Code.Line
import TemplateCode.Tree.Walk

/-!
# Listing a walk

The listing of a tree has a line for each event of a walk that skips nothing, indented by the number
of nodes that the walk is in.
-/

namespace TemplateCode

namespace Phase

/-- The word for a phase in a listing. -/
def word : Phase → String
  | enter => "BEGIN"
  | leave => "END"

end Phase

namespace Event

/-- The key of the slot that a node is in. -/
def slotKey (event : Event) : String :=
  match event.place with
  | some place => place.slot.key
  | none => "root"

/-- The line of an event at a depth. -/
def line (event : Event) (depth : Nat) : String :=
  indentation depth ++ " " ++ event.phase.word ++ " " ++ event.node.kind.tag ++ " (" ++ event.slotKey ++
    ")"

end Event

/-- The lines of events, starting at a depth. -/
def listEvents : Nat → List Event → List String
  | _, [] => []
  | depth, event :: events =>
    match event.phase with
    | .enter => event.line depth :: listEvents (depth + 1) events
    | .leave => event.line (depth - 1) :: listEvents (depth - 1) events

namespace Node

/-- The lines of the walk through a tree. -/
def listing (root : Node) : List String :=
  listEvents 0 (root.walk fun _ => false)

/-- The walk through a tree as a text. -/
def trace (root : Node) : String :=
  joinLines root.listing

end Node

end TemplateCode
