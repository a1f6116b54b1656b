import TemplateCode.Tree.Node

/-!
# Walking a tree

A walk enters a node, visits what is in its fields, and leaves it. Expression and context slots are
not walked, and a walk may be told to skip what is below nodes of some kinds.

* `Position` identifies a node by the way to it.
* `locate` hands each node below its position, `walked` selects what a walk visits; both work on the
  meanings of `Node.fold`, so that every interpretation of a tree shares them.
* `Node.walk` is the list of events of a walk.
-/

namespace TemplateCode

/-- The way from the root to a node, innermost step first. A step is the index of a field and the
index of a node in it. -/
abbrev Position := List (Nat × Nat)

/-- Gives each of the meanings below a node its position. -/
def locate {α : Type} (here : Position) (below : List (Slot × List (Position → α))) :
    List (Slot × List α) :=
  below.mapIdx fun i (slot, meanings) => (slot, meanings.mapIdx fun j meaning => meaning ((i, j) :: here))

/-- What a walk visits below a node, in order, each with its slot. -/
def walked {α : Type} (below : List (Slot × List α)) : List (Slot × α) :=
  (below.filter fun (slot, _) => !slot.isFragment).flatMap fun (slot, meanings) =>
    meanings.map fun meaning => (slot, meaning)

/-- The parent of a node and the slot it is in. -/
structure Place where
  parent : Node
  slot : Slot

inductive Phase where
  | enter
  | leave
deriving DecidableEq, Repr

/-- A step of a walk. The root of a tree has no place. -/
structure Event where
  phase : Phase
  node : Node
  place : Option Place
  position : Position

namespace Node

/-- The events of a walk that does not go below the nodes of which `skips` holds. -/
def walk (skips : Kind → Bool) (root : Node) : List Event :=
  root.fold (α := Position → Option Place → List Event) visit [] none
where
  visit (node : Node) (below : List (Slot × List (Position → Option Place → List Event)))
      (here : Position) (place : Option Place) : List Event :=
    let inner :=
      if skips node.kind then
        []
      else
        (walked (locate here below)).flatMap fun (slot, events) => events (some ⟨node, slot⟩)
    ⟨.enter, node, place, here⟩ :: inner ++ [⟨.leave, node, place, here⟩]

end Node

end TemplateCode
