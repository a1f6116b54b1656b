import TemplateCode.Span
import TemplateCode.Tree.Kind
import TemplateCode.Tree.Slot

/-!
# Template trees

A node has a kind, a range of the source, an optional name, and an ordered list of fields. A field
is a slot together with the one node or the sequence of nodes it holds; a slot may occur twice.

* `Node.fold` interprets a tree from the leaves up, `Node.fold_eq` is its defining equation.
* `Node.induction` proves a property of all nodes from the nodes below.
* `Node.field?`, `Node.child?`, `Node.nodesIn` look at the first field of a slot.
-/

namespace TemplateCode

mutual

/-- A node of a template tree. -/
structure Node where
  kind : Kind
  span : Span := {}
  /-- The name of a tag, of a directive or of an identifier. -/
  name : Option String := none
  /-- Set on a branch that the template leaves out. -/
  skip : Bool := false
  fields : List Field := []

/-- A slot and what it holds. -/
inductive Field where
  | one (slot : Slot) (node : Node)
  | many (slot : Slot) (nodes : List Node)

end

namespace Field

def slot : Field → Slot
  | one slot _ => slot
  | many slot _ => slot

/-- The nodes of a field, a single node as a sequence of one. -/
def nodes : Field → List Node
  | one _ node => [node]
  | many _ nodes => nodes

end Field

namespace Node

instance : Inhabited Node := ⟨⟨default, {}, none, false, []⟩⟩

mutual

/-- Interprets a tree from the leaves up: `alg` gives the meaning of a node from the node itself and
the meanings of the nodes in its fields. -/
def fold {α : Type} (alg : Node → List (Slot × List α) → α) : Node → α
  | ⟨kind, span, name, skip, fields⟩ => alg ⟨kind, span, name, skip, fields⟩ (foldFields alg fields)

def foldFields {α : Type} (alg : Node → List (Slot × List α) → α) : List Field → List (Slot × List α)
  | [] => []
  | .one slot node :: fields => (slot, [fold alg node]) :: foldFields alg fields
  | .many slot nodes :: fields => (slot, foldNodes alg nodes) :: foldFields alg fields

def foldNodes {α : Type} (alg : Node → List (Slot × List α) → α) : List Node → List α
  | [] => []
  | node :: nodes => fold alg node :: foldNodes alg nodes

end

theorem foldNodes_eq {α : Type} (alg : Node → List (Slot × List α) → α) (nodes : List Node) :
    foldNodes alg nodes = nodes.map (fold alg) := by
  induction nodes with
  | nil => simp [foldNodes]
  | cons node nodes ih => simp [foldNodes, ih]

theorem foldFields_eq {α : Type} (alg : Node → List (Slot × List α) → α) (fields : List Field) :
    foldFields alg fields = fields.map fun field => (field.slot, field.nodes.map (fold alg)) := by
  induction fields with
  | nil => simp [foldFields]
  | cons field fields ih =>
    cases field <;> simp [foldFields, foldNodes_eq, ih, Field.slot, Field.nodes]

/-- The meaning of a node, in terms of the meanings of the nodes directly below it. -/
theorem fold_eq {α : Type} (alg : Node → List (Slot × List α) → α) (node : Node) :
    node.fold alg =
      alg node (node.fields.map fun field => (field.slot, field.nodes.map (fold alg))) := by
  cases node
  rw [fold, foldFields_eq]

/-- A property that passes from the nodes of its fields to a node holds of every tree. -/
theorem induction {P : Node → Prop}
    (step : ∀ node : Node, (∀ field ∈ node.fields, ∀ below ∈ field.nodes, P below) → P node) :
    ∀ node, P node := by
  refine @Node.rec P (fun field => ∀ below ∈ field.nodes, P below)
    (fun fields => ∀ field ∈ fields, ∀ below ∈ field.nodes, P below)
    (fun nodes => ∀ below ∈ nodes, P below) ?_ ?_ ?_ ?_ ?_ ?_ ?_
  · intro kind span name skip fields ih
    exact step _ ih
  · intro slot node ih below h
    rw [Field.nodes, List.mem_singleton] at h
    exact h ▸ ih
  · intro slot nodes ih
    exact ih
  · simp
  · intro field fields ihField ihFields
    exact List.forall_mem_cons.2 ⟨ihField, ihFields⟩
  · simp
  · intro node nodes ihNode ihNodes
    exact List.forall_mem_cons.2 ⟨ihNode, ihNodes⟩

mutual

/-- Trees are compared structurally. -/
def decEq : (a b : Node) → Decidable (a = b)
  | ⟨kind, span, name, skip, fields⟩, ⟨kind', span', name', skip', fields'⟩ =>
    letI := decEqFields fields fields'
    decidable_of_iff
      (kind = kind' ∧ span = span' ∧ name = name' ∧ skip = skip' ∧ fields = fields') (by simp)

def decEqFields : (a b : List Field) → Decidable (a = b)
  | [], [] => isTrue rfl
  | [], _ :: _ => isFalse (by simp)
  | _ :: _, [] => isFalse (by simp)
  | .one slot node :: fields, .one slot' node' :: fields' =>
    letI := decEq node node'
    letI := decEqFields fields fields'
    decidable_of_iff (slot = slot' ∧ node = node' ∧ fields = fields') (by simp [and_assoc])
  | .many slot nodes :: fields, .many slot' nodes' :: fields' =>
    letI := decEqNodes nodes nodes'
    letI := decEqFields fields fields'
    decidable_of_iff (slot = slot' ∧ nodes = nodes' ∧ fields = fields') (by simp [and_assoc])
  | .one _ _ :: _, .many _ _ :: _ => isFalse (by simp)
  | .many _ _ :: _, .one _ _ :: _ => isFalse (by simp)

def decEqNodes : (a b : List Node) → Decidable (a = b)
  | [], [] => isTrue rfl
  | [], _ :: _ => isFalse (by simp)
  | _ :: _, [] => isFalse (by simp)
  | node :: nodes, node' :: nodes' =>
    letI := decEq node node'
    letI := decEqNodes nodes nodes'
    decidable_of_iff (node = node' ∧ nodes = nodes') (by simp)

end

instance : DecidableEq Node := decEq

/-- The name of a node, empty if it has none. -/
def label (node : Node) : String :=
  node.name.getD ""

/-- The first field of a slot. -/
def field? (node : Node) (slot : Slot) : Option Field :=
  node.fields.find? fun field => field.slot = slot

/-- The nodes in the first field of a slot. -/
def nodesIn (node : Node) (slot : Slot) : List Node :=
  match node.field? slot with
  | some field => field.nodes
  | none => []

/-- The first node in the first field of a slot. -/
def child? (node : Node) (slot : Slot) : Option Node :=
  (node.nodesIn slot).head?

def children (node : Node) : List Node :=
  node.nodesIn .children

def attributes (node : Node) : List Node :=
  node.nodesIn .attributes

/-- The attributes that bind names for the content of a node. -/
def letDirectives (node : Node) : List Node :=
  node.attributes.filter fun directive => directive.kind = .letDirective

/-- All nodes of a tree with their depth, each before the nodes of its fields, fields in order. -/
def outline (node : Node) : List (Nat × Node) :=
  node.fold (α := Nat → List (Nat × Node))
    (fun node below depth =>
      (depth, node) :: (below.flatMap Prod.snd).flatMap fun outline => outline (depth + 1))
    0

/-- All nodes of a tree, each before the nodes of its fields, fields in order. -/
def preorder (node : Node) : List Node :=
  node.fold fun node below => node :: (below.flatMap Prod.snd).flatten

end Node

end TemplateCode
