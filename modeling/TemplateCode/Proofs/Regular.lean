import TemplateCode.Proofs.Statement

/-!
# Regular trees

The code of a tree is written with a stack of open blocks: an alternative closes the block it belongs
to, and a condition that is all there is in an alternative goes on with the chain. For the trees that a
template parser makes, the statements can be given without a stack.

* `Node.statements`: the statements of a tree, by recursion on the tree.
* `Node.Regular`: alternatives are where they belong.
* `Node.RegularAt.alternative_cases`, `Node.RegularAt.walked_children`: what a walk finds in a
  condition, in a loop and in an alternative of a regular tree.
-/

namespace TemplateCode

/-- A branch of an await block, if there is one. -/
def Statement.ofBranch : Option (List Statement) → List Statement
  | some body => [.branch body]
  | none => []

namespace Node

/-! ## The statements of a tree -/

/-- The statements with which a node begins. -/
def ownStatements (read : Reading) (node : Node) : List Statement :=
  match node.kind with
  | .inlineComponent => [.line ("new " ++ node.component read ++ "();")]
  | .mustacheTag | .rawMustacheTag | .attributeShorthand | .binding | .eventHandler =>
    [.read (node.expression read)]
  | .spread =>
    if node.expression read = "" then []
    else [.read ("\x7b ..." ++ node.expression read ++ " \x7d")]
  | .debugTag => (node.nodesIn .identifiers).map fun identifier => .read identifier.label
  | .classDirective => [.read (node.classCondition read ++ " ? '" ++ node.label ++ "' : null")]
  | .action | .transition => [.line (directiveCall node.label [node.expression read])]
  | .animation => [.line (directiveCall node.label [animationRects, node.expression read])]
  | _ => []

/-- Content in the scope of the names that a node binds, if it binds any. -/
def inScope (read : Reading) (node : Node) (content : List Statement) : List Statement :=
  match node.boundNames read with
  | [] => content
  | names => [.scope names content]

/-- What a node puts around its content. -/
def enclose (read : Reading) (node : Node) (content : List Statement) : List Statement :=
  match node.kind with
  | .inlineComponent | .slotTemplate => node.inScope read content
  | .element => if node.isSlotted then node.inScope read content else content
  | .keyBlock => [.block ("/*key*/ if (" ++ node.expression read ++ ")") content]
  | _ => content

/-- The head of a conditional block. -/
def ifHeader (read : Reading) (node : Node) (continues : Bool) : String :=
  (if continues then "else if (" else "if (") ++ node.expression read ++ ")"

/-- The head of a loop. -/
def forHeader (read : Reading) (node : Node) : String :=
  "for (const " ++ node.textIn read .context ++ " of " ++ node.expression read ++ ")"

/-- An await block, given the statements of the nodes in its fields. -/
def awaitStatements (read : Reading) (node : Node) (below : List (Slot × List (List Statement))) :
    List Statement :=
  [.block "try"
      (Statement.ofBranch (firstIn .pending below) ++ [.line (awaitStatement read node)] ++
        Statement.ofBranch (firstIn .thenBranch below)),
    match catchBranch node below with
    | some body => .block (catchHeader read node) [.branch body]
    | none => .line "catch \x7b\x7d"]

/-- The statements of a node, given those of the nodes in its fields. `continues` says whether the node
belongs to a chain of conditions that has begun before it. -/
def statementsNode (read : Reading) (node : Node)
    (below : List (Slot × List (Bool → List Statement))) (continues : Bool) : List Statement :=
  let visited := walked below
  let content := visited.flatMap fun visit => visit.2 false
  let body := (visited.filter fun visit => visit.1 ≠ .elseBranch).flatMap fun visit => visit.2 false
  let alternative := visited.filter fun visit => visit.1 = .elseBranch
  match node.kind with
  | .ifBlock =>
    .block (node.ifHeader read continues) body :: alternative.flatMap fun visit => visit.2 true
  | .elseBlock =>
    if continues && node.holdsOnlyIf then visited.flatMap fun visit => visit.2 true
    else [.block "else" content]
  | .eachBlock =>
    let loop := .block (node.forHeader read) body
    if alternative.isEmpty then [loop]
    else
      .block ("if (" ++ node.expression read ++ ")") [loop] ::
        alternative.flatMap fun visit => visit.2 false
  | .awaitBlock => node.awaitStatements read (mapBelow (fun meaning => meaning false) below)
  | _ => node.ownStatements read ++ node.enclose read content

/-- The statements of a tree. -/
def statements (read : Reading) (root : Node) : Bool → List Statement :=
  root.fold (statementsNode read)

theorem statements_eq (read : Reading) (node : Node) (here : Position) :
    node.statements read =
      statementsNode read node
        (mapBelow (fun part => part.2.statements read) (node.parts here)) := by
  unfold statements
  rw [fold_eq, map_fields here]

theorem walked_statements (read : Reading) (node : Node) (here : Position) :
    walked (mapBelow (fun part => part.2.statements read) (node.parts here)) =
      (walked (node.parts here)).map fun visit => (visit.1, visit.2.2.statements read) :=
  walked_mapBelow _ _

theorem statements_ifBlock (read : Reading) {node : Node} (here : Position) (h : node.kind = .ifBlock)
    (continues : Bool) :
    node.statements read continues =
      .block (node.ifHeader read continues)
        (((walked (node.parts here)).filter fun visit => visit.1 ≠ .elseBranch).flatMap fun visit =>
          visit.2.2.statements read false) ::
      ((walked (node.parts here)).filter fun visit => visit.1 = .elseBranch).flatMap fun visit =>
        visit.2.2.statements read true := by
  rw [statements_eq read node here]
  unfold statementsNode
  rw [walked_statements]
  simp only [h, List.filter_map, List.flatMap_map, Function.comp_def]

theorem statements_elseBlock (read : Reading) {node : Node} (here : Position)
    (h : node.kind = .elseBlock) (continues : Bool) :
    node.statements read continues =
      if continues && node.holdsOnlyIf then
        (walked (node.parts here)).flatMap fun visit => visit.2.2.statements read true
      else
        [.block "else" ((walked (node.parts here)).flatMap fun visit =>
          visit.2.2.statements read false)] := by
  rw [statements_eq read node here]
  unfold statementsNode
  rw [walked_statements]
  simp only [h, List.flatMap_map]

theorem statements_eachBlock (read : Reading) {node : Node} (here : Position)
    (h : node.kind = .eachBlock) (continues : Bool) :
    node.statements read continues =
      let loop := .block (node.forHeader read)
        (((walked (node.parts here)).filter fun visit => visit.1 ≠ .elseBranch).flatMap fun visit =>
          visit.2.2.statements read false)
      let alternative := (walked (node.parts here)).filter fun visit => visit.1 = .elseBranch
      if alternative.isEmpty then [loop]
      else
        .block ("if (" ++ node.expression read ++ ")") [loop] ::
          alternative.flatMap fun visit => visit.2.2.statements read false := by
  rw [statements_eq read node here]
  unfold statementsNode
  rw [walked_statements]
  simp only [h, List.filter_map, List.flatMap_map, Function.comp_def, List.isEmpty_map]

theorem statements_awaitBlock (read : Reading) {node : Node} (here : Position)
    (h : node.kind = .awaitBlock) (continues : Bool) :
    node.statements read continues =
      node.awaitStatements read
        (mapBelow (fun part => part.2.statements read false) (node.parts here)) := by
  rw [statements_eq read node here]
  unfold statementsNode
  simp only [h, mapBelow_mapBelow]

/-- The kinds that are neither conditions nor loops, nor alternatives, nor await blocks. -/
def isPlain (node : Node) : Bool :=
  node.kind ≠ .ifBlock && node.kind ≠ .elseBlock && node.kind ≠ .eachBlock && node.kind ≠ .awaitBlock

theorem statements_plain (read : Reading) {node : Node} (here : Position) (h : node.isPlain = true)
    (continues : Bool) :
    node.statements read continues =
      node.ownStatements read ++ node.enclose read
        ((walked (node.parts here)).flatMap fun visit => visit.2.2.statements read false) := by
  rw [statements_eq read node here]
  unfold statementsNode
  rw [walked_statements]
  unfold isPlain at h
  cases hkind : node.kind <;> simp_all [List.flatMap_map]

/-! ## Regular trees -/

/-- The fields of a node, with the kinds of the nodes they hold. -/
def fieldKinds (node : Node) : List (Slot × List Kind) :=
  node.fields.map fun field => (field.slot, field.nodes.map kind)

/-- The fields that are walked, likewise. -/
def walkedKinds (node : Node) : List (Slot × List Kind) :=
  node.fieldKinds.filter fun field => !field.1.isFragment

/-- Whether a node may have an alternative, being a condition or a loop. -/
def takesAlternative (node : Node) : Bool :=
  node.kind = .ifBlock || node.kind = .eachBlock

/-- A node that has alternatives only where they belong, and that is made as it should be if it is one
itself. -/
structure RegularAt (node : Node) : Prop where
  /-- An alternative is in the slot for the alternative of a condition or a loop. -/
  placed : ∀ visit ∈ visits node node.fieldKinds, visit.2 = .elseBlock →
    visit.1 = .elseBranch ∧ node.takesAlternative = true
  /-- The slot holds the alternative and nothing else. -/
  single : node.takesAlternative = true → ∀ field ∈ node.walkedKinds, field.1 = .elseBranch →
    field.2 = [.elseBlock]
  /-- The slot is the last one that is walked, and so there is only one. -/
  last : node.takesAlternative = true → ∀ field ∈ node.walkedKinds.dropLast, field.1 ≠ .elseBranch
  /-- Of an alternative the children are walked and nothing else. -/
  children : node.kind = .elseBlock → node.walkedKinds.map Prod.fst = [.children]

instance (node : Node) : Decidable node.RegularAt :=
  decidable_of_iff
    ((∀ visit ∈ visits node node.fieldKinds, visit.2 = .elseBlock →
        visit.1 = .elseBranch ∧ node.takesAlternative = true) ∧
      (node.takesAlternative = true → ∀ field ∈ node.walkedKinds, field.1 = .elseBranch →
        field.2 = [.elseBlock]) ∧
      (node.takesAlternative = true → ∀ field ∈ node.walkedKinds.dropLast, field.1 ≠ .elseBranch) ∧
      (node.kind = .elseBlock → node.walkedKinds.map Prod.fst = [.children]))
    ⟨fun ⟨hplaced, hsingle, hlast, hchildren⟩ => ⟨hplaced, hsingle, hlast, hchildren⟩,
      fun h => ⟨h.placed, h.single, h.last, h.children⟩⟩

/-- The nodes that the generator visits, each before those below it. -/
def visited (root : Node) : List Node :=
  root.fold fun node below => node :: (visits node below).flatMap Prod.snd

theorem visited_eq (node : Node) (here : Position) :
    node.visited = node :: (visits node (node.parts here)).flatMap fun visit => visit.2.2.visited := by
  unfold visited
  rw [fold_eq, map_fields here, visits_mapBelow, List.flatMap_map]

/-- A tree that is no alternative itself and has alternatives only where they belong. -/
structure Regular (root : Node) : Prop where
  root_kind : root.kind ≠ .elseBlock
  regularAt : ∀ node ∈ root.visited, node.RegularAt

instance (root : Node) : Decidable root.Regular :=
  decidable_of_iff (root.kind ≠ .elseBlock ∧ ∀ node ∈ root.visited, node.RegularAt)
    ⟨fun ⟨hkind, hnodes⟩ => ⟨hkind, hnodes⟩, fun h => ⟨h.root_kind, h.regularAt⟩⟩

theorem mapBelow_kind (here : Position) (node : Node) :
    mapBelow (fun part => part.2.kind) (node.parts here) = node.fieldKinds :=
  (map_fields here node kind).symm

namespace RegularAt

variable {node : Node}

/-- Outside the slot for it there is no alternative. -/
theorem kind_ne (h : node.RegularAt) {here : Position} {visit : Slot × Position × Node}
    (hvisit : visit ∈ visits node (node.parts here))
    (hslot : node.takesAlternative = true → visit.1 ≠ .elseBranch) : visit.2.2.kind ≠ .elseBlock := by
  intro hkind
  have hmem : (visit.1, visit.2.2.kind) ∈ visits node node.fieldKinds := by
    rw [← mapBelow_kind here, visits_mapBelow]
    exact List.mem_map_of_mem hvisit
  obtain ⟨hbranch, htakes⟩ := h.placed _ hmem hkind
  exact hslot htakes hbranch

/-- The fields that are walked, with the positions of the nodes they hold. -/
theorem map_filter_parts (here : Position) :
    mapBelow (fun part => part.2.kind) ((node.parts here).filter fun field => !field.1.isFragment) =
      node.walkedKinds := by
  unfold walkedKinds
  rw [← mapBelow_kind here, mapBelow, mapBelow, List.filter_map]
  rfl

/-- Looking a slot up among the fields that are walked. -/
theorem field?_eq (node : Node) (here : Position) {slot : Slot} (hslot : slot.isFragment = false) :
    (node.field? slot).map Field.nodes =
      (((node.parts here).filter fun field => !field.1.isFragment).find? fun field =>
        decide (field.1 = slot)).map fun field => field.2.map Prod.snd := by
  -- leaving out the fields that are not walked does not lose a slot that is
  have hpredicate : (fun field : Slot × List (Position × Node) =>
      decide ((!field.1.isFragment) = true ∧ decide (field.1 = slot) = true)) =
        fun field => decide (field.1 = slot) := by
    funext field
    by_cases h : field.1 = slot <;> simp [h, hslot]
  have hfields := congrArg (List.find? fun field => decide (field.1 = slot)) (map_fields here node id)
  unfold mapBelow at hfields
  rw [List.find?_map, List.find?_map] at hfields
  simp only [Function.comp_def, List.map_id] at hfields
  have hnodes := congrArg (Option.map Prod.snd) hfields
  rw [Option.map_map, Option.map_map] at hnodes
  rw [List.find?_filter, hpredicate]
  exact hnodes

/-- **The walked content of a condition or a loop**: either there is no alternative, or it comes last
and is one node. -/
theorem alternative_cases (h : node.RegularAt) (htakes : node.takesAlternative = true)
    (here : Position) :
    ((∀ visit ∈ walked (node.parts here), visit.1 ≠ .elseBranch) ∧ node.field? .elseBranch = none) ∨
      ∃ others part, walked (node.parts here) = others ++ [(.elseBranch, part)] ∧
        (∀ visit ∈ others, visit.1 ≠ .elseBranch) ∧ part.2.kind = .elseBlock ∧
        ∃ field, node.field? .elseBranch = some field ∧ field.nodes = [part.2] := by
  have hkinds := @map_filter_parts node here
  have hfield := @field?_eq node here .elseBranch rfl
  have hsingle := h.single htakes
  have hlast := h.last htakes
  rw [← hkinds] at hsingle hlast
  unfold walked
  -- only the last of the walked fields can be the one with the alternative
  have hothers : ∀ fields : List (Slot × List (Position × Node)),
      (∀ field ∈ fields, field.1 ≠ .elseBranch) →
      (∀ visit ∈ fields.flatMap (fun field => field.2.map fun part => (field.1, part)),
        visit.1 ≠ .elseBranch) ∧ (fields.find? fun field => decide (field.1 = .elseBranch)) = none := by
    intro fields hfields
    constructor
    · intro visit hvisit
      obtain ⟨field, hfield, hpart⟩ := List.mem_flatMap.1 hvisit
      obtain ⟨part, -, rfl⟩ := List.mem_map.1 hpart
      exact hfields field hfield
    · exact List.find?_eq_none.2 fun field hfield => by simpa using hfields field hfield
  generalize ((node.parts here).filter fun field => !field.1.isFragment) = fields at *
  rcases List.eq_nil_or_concat fields with rfl | ⟨init, field, hfields⟩
  · exact Or.inl ⟨by simp, Option.map_eq_none_iff.1 hfield⟩
  rw [List.concat_eq_append] at hfields
  subst hfields
  have hinit : ∀ other ∈ init, other.1 ≠ .elseBranch := by
    intro other hother
    refine hlast (other.1, other.2.map fun part => part.2.kind) ?_
    unfold mapBelow
    rw [List.map_append, List.map_singleton, List.dropLast_concat]
    exact List.mem_map_of_mem hother
  by_cases hslot : field.1 = .elseBranch
  · have hkind : field.2.map (fun part => part.2.kind) = [.elseBlock] :=
      hsingle _ (List.mem_map_of_mem (List.mem_append_right _ List.mem_cons_self)) hslot
    obtain ⟨part, hpart, hpartKind⟩ := List.map_eq_singleton_iff.1 hkind
    obtain rfl : field = (.elseBranch, [part]) := Prod.ext hslot hpart
    obtain ⟨hslots, hfind⟩ := hothers init hinit
    refine Or.inr ⟨_, part, ?_, hslots, hpartKind, ?_⟩
    · rw [List.flatMap_append, List.flatMap_singleton]
      rfl
    · rw [List.find?_append, hfind] at hfield
      exact Option.map_eq_some_iff.1 hfield
  · have hall : ∀ other ∈ init ++ [field], other.1 ≠ .elseBranch := by
      intro other hother
      rcases List.mem_append.1 hother with hother | hother
      · exact hinit other hother
      · rw [List.mem_singleton.1 hother]
        exact hslot
    obtain ⟨hslots, hfind⟩ := hothers _ hall
    rw [hfind] at hfield
    exact Or.inl ⟨hslots, Option.map_eq_none_iff.1 hfield⟩

/-- **The walked content of an alternative** is its children. -/
theorem walked_children (h : node.RegularAt) (hkind : node.kind = .elseBlock) (here : Position) :
    ∃ parts : List (Position × Node), node.children = parts.map Prod.snd ∧
      walked (node.parts here) = parts.map fun part => (.children, part) := by
  have hslots := h.children hkind
  rw [← map_filter_parts here, mapBelow, List.map_map] at hslots
  obtain ⟨⟨slot, parts⟩, hfilter, hslot⟩ := List.map_eq_singleton_iff.1 hslots
  obtain rfl : slot = .children := hslot
  refine ⟨parts, ?_, ?_⟩
  · have hfield := @field?_eq node here .children rfl
    rw [hfilter] at hfield
    obtain ⟨field, hfind, hnodes⟩ := Option.map_eq_some_iff.1 hfield
    unfold Node.children nodesIn
    rw [hfind]
    exact hnodes
  · unfold walked
    rw [hfilter, List.flatMap_singleton]

/-- An alternative that holds only a condition. -/
theorem walked_only (h : node.RegularAt) (hkind : node.kind = .elseBlock)
    (hfold : node.holdsOnlyIf = true) (here : Position) :
    ∃ part, walked (node.parts here) = [(.children, part)] ∧ node.children = [part.2] ∧
      part.2.kind = .ifBlock := by
  obtain ⟨parts, hchildren, hwalked⟩ := h.walked_children hkind here
  unfold holdsOnlyIf at hfold
  rw [hchildren] at hfold
  rcases parts with _ | ⟨part, _ | ⟨second, parts⟩⟩
  · cases hfold
  · exact ⟨part, hwalked, hchildren, by simpa using hfold⟩
  · cases hfold

end RegularAt

/-- A tree whose nodes are regular, taken apart. -/
theorem regularAt_visited {node : Node} (h : ∀ part ∈ node.visited, part.RegularAt) (here : Position) :
    node.RegularAt ∧ ∀ visit ∈ visits node (node.parts here),
      ∀ part ∈ visit.2.2.visited, part.RegularAt := by
  rw [visited_eq node here] at h
  obtain ⟨hhere, hbelow⟩ := List.forall_mem_cons.1 h
  exact ⟨hhere, fun visit hvisit part hpart =>
    hbelow part (List.mem_flatMap.2 ⟨visit, hvisit, hpart⟩)⟩

end Node

end TemplateCode
