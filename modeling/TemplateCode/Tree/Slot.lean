/-!
# Slots

The named places of a node that hold other nodes.
-/

namespace TemplateCode

/-- The place that a node has under its parent. -/
inductive Slot where
  /-- An expression, of which only the text matters. -/
  | expression
  /-- The pattern of a loop, of which only the text matters. -/
  | context
  | children
  | attributes
  | elseBranch
  | pending
  | thenBranch
  | catchBranch
  | value
  | error
  | identifiers
  /-- A place without a meaning of its own. -/
  | other (key : String)
deriving DecidableEq, Inhabited, Repr

namespace Slot

/-- The field name of a slot. -/
def key : Slot → String
  | expression => "expression"
  | context => "context"
  | children => "children"
  | attributes => "attributes"
  | elseBranch => "else"
  | pending => "pending"
  | thenBranch => "then"
  | catchBranch => "catch"
  | value => "value"
  | error => "error"
  | identifiers => "identifiers"
  | other key => key

/-- The slots that have a field name reserved for them. -/
def reserved : List Slot :=
  [expression, context, children, attributes, elseBranch, pending, thenBranch, catchBranch, value,
    error, identifiers]

/-- The slot that a field name stands for. -/
def ofKey (key : String) : Slot :=
  (reserved.find? fun slot => slot.key == key).getD (other key)

/-- Whether a slot only records its field name. -/
def isOther : Slot → Bool
  | other _ => true
  | _ => false

/-- Whether a slot holds a piece of source text rather than template structure. Such slots are
never walked. -/
def isFragment : Slot → Bool
  | expression | context => true
  | _ => false

end Slot

end TemplateCode
