import TemplateCode.Proofs.Fitting
import TemplateCode.Proofs.Parts
import Mathlib.Data.List.Lex

/-!
# Walks through a tree

A walk that skips what is below some nodes goes through the tree that is left when this is taken away. It
enters and leaves each node of that tree once. A node is left after all that is below it, and nodes are
entered in preorder.

* `Node.pruned`: a tree without what is not walked, `Node.walkAt_pruned`: the walk through it.
* `Node.Remains`: the nodes that are left, `Node.mem_walkAt_iff_remains`: a walk meets these and no other.
* `Event.Nested`, `Event.Precedes`: how events are nested, and in which order they come.
* `walk_tour`: what the events of a walk are.
-/

namespace TemplateCode

/-! ## Trees without what is not walked -/

/-- Numbering the items that are kept is numbering all items and leaving some out, with the numbers moved. -/
theorem mapIdx_filter {α β γ : Type} {keep : α → Bool} {keep' : β → Bool} {f : Nat → α → γ} {g : Nat → α → β}
    {move : β → γ} {items : List α} (hkeep : ∀ i item, keep' (g i item) = keep item)
    (hmove : ∀ i item, f ((items.take i).countP keep) item = move (g i item)) :
    (items.filter keep).mapIdx f = ((items.mapIdx g).filter keep').map move := by
  induction items generalizing f g with
  | nil => rfl
  | cons item items ih =>
    have hitem : f 0 item = move (g 0 item) := hmove 0 item
    have hrest : ∀ i other, f ((items.take i).countP keep + if keep item then 1 else 0) other =
        move (g (i + 1) other) := by
      intro i other
      rw [← hmove (i + 1) other, List.take_succ_cons, List.countP_cons]
    rw [List.mapIdx_cons, List.filter_cons, List.filter_cons, hkeep]
    cases hkept : keep item with
    | true =>
      simp only [hkept, if_true] at hrest ⊢
      rw [List.mapIdx_cons, List.map_cons, hitem]
      exact congrArg _ (ih (fun i => hkeep (i + 1)) hrest)
    | false =>
      -- an item that is left out moves no number after it
      simp only [hkept, Bool.false_eq_true, if_false, Nat.add_zero] at hrest ⊢
      exact ih (fun i => hkeep (i + 1)) hrest

theorem Slot.isFragment_iff {slot : Slot} :
    slot.isFragment = true ↔ slot = .expression ∨ slot = .context := by
  cases slot <;> simp [isFragment]

namespace Node

mutual

/-- A tree without what a walk does not go into: nodes of which `skips` holds have no fields, and no node has
a field for an expression or a pattern. -/
def pruned (skips : Kind → Bool) : Node → Node
  | ⟨kind, span, name, skip, fields⟩ =>
    ⟨kind, span, name, skip, if skips kind then [] else prunedFields skips fields⟩

def prunedFields (skips : Kind → Bool) : List Field → List Field
  | [] => []
  | .one slot node :: fields =>
    if slot = .expression ∨ slot = .context then prunedFields skips fields
    else .one slot (pruned skips node) :: prunedFields skips fields
  | .many slot nodes :: fields =>
    if slot = .expression ∨ slot = .context then prunedFields skips fields
    else .many slot (prunedNodes skips nodes) :: prunedFields skips fields

def prunedNodes (skips : Kind → Bool) : List Node → List Node
  | [] => []
  | node :: nodes => pruned skips node :: prunedNodes skips nodes

end

end Node

/-- A field whose nodes are pruned. -/
def Field.pruned (skips : Kind → Bool) : Field → Field
  | one slot node => one slot (node.pruned skips)
  | many slot nodes => many slot (nodes.map (Node.pruned skips))

theorem Field.pruned_slot (skips : Kind → Bool) (field : Field) : (field.pruned skips).slot = field.slot := by
  cases field <;> rfl

theorem Field.pruned_nodes (skips : Kind → Bool) (field : Field) :
    (field.pruned skips).nodes = field.nodes.map (Node.pruned skips) := by
  cases field <;> rfl

namespace Node

theorem prunedNodes_eq (skips : Kind → Bool) (nodes : List Node) :
    prunedNodes skips nodes = nodes.map (pruned skips) := by
  induction nodes with
  | nil => simp [prunedNodes]
  | cons node nodes ih => simp [prunedNodes, ih]

theorem pruned_eq (skips : Kind → Bool) (node : Node) :
    node.pruned skips =
      { node with
        fields := if skips node.kind then []
          else (node.fields.filter fun field => !field.slot.isFragment).map (Field.pruned skips) } := by
  have hfields : ∀ fields, prunedFields skips fields =
      (fields.filter fun field => !field.slot.isFragment).map (Field.pruned skips) := by
    intro fields
    induction fields with
    | nil => simp [prunedFields]
    | cons field fields ih =>
      cases field with
      | one slot node =>
        simp only [prunedFields, ih, List.filter_cons, ← Slot.isFragment_iff]
        cases hslot : slot.isFragment <;> simp [Field.slot, hslot, Field.pruned]
      | many slot nodes =>
        simp only [prunedFields, ih, prunedNodes_eq, List.filter_cons, ← Slot.isFragment_iff]
        cases hslot : slot.isFragment <;> simp [Field.slot, hslot, Field.pruned]
  cases node
  rw [pruned, hfields]

/-- How many of the fields before a field are walked. -/
def fieldsBefore (node : Node) (i : Nat) : Nat :=
  (node.fields.take i).countP fun field => !field.slot.isFragment

/-- Where a node of a tree stands in the pruned tree. -/
def prunedAddress : Node → Address → Address
  | _, [] => []
  | node, (i, j) :: address =>
    (node.fieldsBefore i, j) ::
      match node.at? [(i, j)] with
      | some below => below.prunedAddress address
      | none => address

theorem prunedAddress_singleton (node : Node) (i j : Nat) :
    node.prunedAddress [(i, j)] = [(node.fieldsBefore i, j)] := by
  rw [prunedAddress]
  cases node.at? [(i, j)] <;> rfl

theorem prunedAddress_cons {node below : Node} {i j : Nat} {field : Field}
    (hfield : node.fields[i]? = some field) (hbelow : field.nodes[j]? = some below) (address : Address) :
    node.prunedAddress ((i, j) :: address) = (node.fieldsBefore i, j) :: below.prunedAddress address := by
  have hat : node.at? [(i, j)] = some below := at?_cons_eq_some_iff.2 ⟨field, below, hfield, hbelow, rfl⟩
  rw [prunedAddress, hat]

/-- What is walked below a node. -/
theorem mem_walked_parts {node : Node} {here : Position} {visit : Slot × Position × Node} :
    visit ∈ walked (node.parts here) ↔
      ∃ i j field, node.fields[i]? = some field ∧ visit.1 = field.slot ∧
        ¬(field.slot = .expression ∨ field.slot = .context) ∧
        field.nodes[j]? = some visit.2.2 ∧ visit.2.1 = (i, j) :: here := by
  unfold walked parts
  constructor
  · intro h
    obtain ⟨part, hpart, hvisit⟩ := List.mem_flatMap.1 h
    obtain ⟨hmem, hslot⟩ := List.mem_filter.1 hpart
    obtain ⟨i, hi, rfl⟩ := List.mem_mapIdx.1 hmem
    obtain ⟨below, hbelow, rfl⟩ := List.mem_map.1 hvisit
    obtain ⟨j, hj, rfl⟩ := List.mem_mapIdx.1 hbelow
    have hwalked : ¬(node.fields[i].slot = .expression ∨ node.fields[i].slot = .context) := by
      simpa [← Slot.isFragment_iff] using hslot
    exact ⟨i, j, node.fields[i], List.getElem?_eq_getElem hi, rfl, hwalked, List.getElem?_eq_getElem hj, rfl⟩
  · rintro ⟨i, j, field, hfield, hslot, hwalked, hbelow, hposition⟩
    obtain ⟨hi, rfl⟩ := List.getElem?_eq_some_iff.1 hfield
    obtain ⟨hj, hbelow⟩ := List.getElem?_eq_some_iff.1 hbelow
    rw [← Slot.isFragment_iff] at hwalked
    refine List.mem_flatMap.2 ⟨_, List.mem_filter.2 ⟨List.mem_mapIdx.2 ⟨i, hi, rfl⟩, by simp [hwalked]⟩, ?_⟩
    refine List.mem_map.2 ⟨_, List.mem_mapIdx.2 ⟨j, hj, rfl⟩, ?_⟩
    rw [hbelow, ← hslot, ← hposition]

end Node

/-- An event of the walk through a pruned tree, where `move` says where the nodes of the tree stand in it. -/
def Event.pruned (skips : Kind → Bool) (move : Position → Position) (event : Event) : Event where
  phase := event.phase
  node := event.node.pruned skips
  place := event.place.map fun place => ⟨place.parent.pruned skips, place.slot⟩
  position := move event.position

namespace Node

/-- Where a node of a tree stands in the pruned tree. -/
def prunedPosition (root : Node) (position : Position) : Position :=
  (root.prunedAddress position.reverse).reverse

theorem walked_pruned {skips : Kind → Bool} {node : Node} (hkind : skips node.kind = false)
    {here here' : Position} {move : Position → Position}
    (hmove : ∀ i j, move ((i, j) :: here) = (node.fieldsBefore i, j) :: here') :
    walked ((node.pruned skips).parts here') =
      (walked (node.parts here)).map fun visit => (visit.1, move visit.2.1, visit.2.2.pruned skips) := by
  have hparts : (node.pruned skips).parts here' =
      mapBelow (fun part => (move part.1, part.2.pruned skips))
        ((node.parts here).filter fun part => !part.1.isFragment) := by
    have hfields : (node.pruned skips).fields =
        (node.fields.filter fun field => !field.slot.isFragment).map (Field.pruned skips) := by
      simp [pruned_eq, hkind]
    unfold parts mapBelow
    rw [hfields, mapIdx_map]
    refine mapIdx_filter (fun _ _ => rfl) fun i field => ?_
    simp only [Field.pruned_slot, Field.pruned_nodes, mapIdx_map, map_mapIdx, hmove]
    rfl
  rw [hparts, walked_mapBelow]
  unfold walked
  rw [List.filter_filter]
  simp only [Bool.and_self]

/-- **Skipping is walking through the pruned tree.** -/
theorem walkAt_pruned (skips : Kind → Bool) (node : Node) (here here' : Position) (place : Option Place)
    (move : Position → Position)
    (hmove : ∀ address, move (address.reverse ++ here) = (node.prunedAddress address).reverse ++ here') :
    (node.walkAt skips here place).map (Event.pruned skips move) =
      (node.pruned skips).walkAt (fun _ => false) here'
        (place.map fun place => ⟨place.parent.pruned skips, place.slot⟩) := by
  induction here, node using located_induction generalizing here' place with
  | step here node ih =>
    -- `move` is known below a node, so it is known below each of its parts
    have hhere : move here = here' := hmove []
    rw [walkAt_eq, walkAt_eq]
    cases hkind : skips node.kind with
    | true =>
      have hparts : (node.pruned skips).parts here' = [] := by simp [pruned_eq, hkind, parts]
      simp [Event.pruned, hhere, hparts, walked]
    | false =>
      have hstep : ∀ i j, move ((i, j) :: here) = (node.fieldsBefore i, j) :: here' := by
        intro i j
        have hone := hmove [(i, j)]
        rwa [prunedAddress_singleton] at hone
      have hinner : ((walked (node.parts here)).flatMap fun visit =>
            (visit.2.2.walkAt skips visit.2.1 (some ⟨node, visit.1⟩)).map (Event.pruned skips move)) =
          (walked (node.parts here)).flatMap fun visit =>
            (visit.2.2.pruned skips).walkAt (fun _ => false) (move visit.2.1)
              (some ⟨node.pruned skips, visit.1⟩) := by
        refine List.flatMap_congr fun visit hvisit => ?_
        obtain ⟨i, j, field, hfield, -, -, hbelow, hposition⟩ := mem_walked_parts.1 hvisit
        refine ih visit.2 (snd_mem_of_mem_walked hvisit) _ _ fun address => ?_
        have haddress := hmove ((i, j) :: address)
        rw [prunedAddress_cons hfield hbelow] at haddress
        simpa [hposition, hstep] using haddress
      simp only [List.map_cons, List.map_append, List.map_nil, List.map_flatMap, walked_pruned hkind hstep,
        List.flatMap_map, Bool.false_eq_true, if_false, hinner]
      simp only [Event.pruned, hhere]

end Node

/-! ## Nodes that remain -/

/-- The nodes of a tree that remain when it is pruned, each with its position and its place: its root, and
what is in the walked slots of a node that remains and is not skipped. -/
inductive Node.Remains (skips : Kind → Bool) (root : Node) (start : Position) (above : Option Place) :
    Position → Node → Option Place → Prop
  | root : Remains skips root start above start root above
  | child {here : Position} {node : Node} {place : Option Place} {i j : Nat} {field : Field} {below : Node}
    (h : Remains skips root start above here node place) (hkind : skips node.kind = false)
    (hfield : node.fields[i]? = some field) (hslot : ¬(field.slot = .expression ∨ field.slot = .context))
    (hbelow : field.nodes[j]? = some below) :
    Remains skips root start above ((i, j) :: here) below (some ⟨node, field.slot⟩)

namespace Node

variable {skips : Kind → Bool} {root node below : Node} {here start position : Position}
  {place above : Option Place} {event : Event}

/-- The events of a walk are those of its root, and those of the walks through its parts. -/
theorem mem_walkAt :
    event ∈ node.walkAt skips here place ↔
      event = ⟨event.phase, node, place, here⟩ ∨
        skips node.kind = false ∧ ∃ visit ∈ walked (node.parts here),
          event ∈ visit.2.2.walkAt skips visit.2.1 (some ⟨node, visit.1⟩) := by
  have hown : event = ⟨event.phase, node, place, here⟩ ↔
      event = ⟨.enter, node, place, here⟩ ∨ event = ⟨.leave, node, place, here⟩ := by
    obtain ⟨phase, node', place', here'⟩ := event
    cases phase <;> simp
  rw [walkAt_eq, hown]
  cases hkind : skips node.kind with
  | true => simp
  | false =>
    simp only [List.cons_append, List.mem_cons, List.mem_append, List.mem_flatMap, Bool.false_eq_true,
      if_false, List.not_mem_nil, or_false, true_and]
    rw [or_assoc, @or_comm (event = ⟨.leave, node, place, here⟩)]

/-- The walk through a part lies between the two events of a node. -/
theorem exists_walkAt_eq {visit : Slot × Position × Node} (hkind : skips node.kind = false)
    (hvisit : visit ∈ walked (node.parts here)) (place : Option Place) :
    ∃ before after, node.walkAt skips here place =
      ⟨.enter, node, place, here⟩ ::
        (before ++ visit.2.2.walkAt skips visit.2.1 (some ⟨node, visit.1⟩) ++
          (after ++ [⟨.leave, node, place, here⟩])) := by
  have hmem : visit.2.2.walkAt skips visit.2.1 (some ⟨node, visit.1⟩) ∈
      (walked (node.parts here)).map fun visit => visit.2.2.walkAt skips visit.2.1 (some ⟨node, visit.1⟩) :=
    List.mem_map.2 ⟨visit, hvisit, rfl⟩
  obtain ⟨before, after, hinner⟩ := List.infix_of_mem_flatten hmem
  refine ⟨before, after, ?_⟩
  rw [node.walkAt_eq, hkind, List.flatMap_def, ← hinner]
  simp

/-- **The walk through a node that is met** is a stretch of the whole walk. -/
theorem walkAt_infix_of_mem (h : event ∈ node.walkAt skips here place) :
    event.node.walkAt skips event.position event.place <:+: node.walkAt skips here place := by
  induction here, node using located_induction generalizing place with
  | step here node ih =>
    rcases mem_walkAt.1 h with hevent | ⟨hkind, visit, hvisit, hevent⟩
    · have hself : event.node.walkAt skips event.position event.place = node.walkAt skips here place := by
        rw [hevent]
      exact hself ▸ List.infix_rfl
    · have hpart := ih visit.2 (snd_mem_of_mem_walked hvisit) hevent
      obtain ⟨before, after, hwalk⟩ := exists_walkAt_eq hkind hvisit place
      refine hpart.trans ⟨⟨.enter, node, place, here⟩ :: before, after ++ [⟨.leave, node, place, here⟩], ?_⟩
      rw [hwalk, List.cons_append, List.cons_append]

theorem Remains.of_part {visit : Slot × Position × Node} (hkind : skips node.kind = false)
    (hvisit : visit ∈ walked (node.parts here))
    (h : visit.2.2.Remains skips visit.2.1 (some ⟨node, visit.1⟩) position below above) :
    node.Remains skips here place position below above := by
  induction h with
  | root =>
    obtain ⟨i, j, field, hfield, hslot, hfragment, hbelow, hposition⟩ := mem_walked_parts.1 hvisit
    rw [hposition, hslot]
    exact .child .root hkind hfield hfragment hbelow
  | child _ hkind hfield hslot hbelow ih => exact .child ih hkind hfield hslot hbelow

/-- **A walk enters and leaves the nodes that remain** and meets no other. -/
theorem mem_walkAt_iff_remains :
    event ∈ node.walkAt skips here place ↔
      node.Remains skips here place event.position event.node event.place := by
  constructor
  · intro h
    induction here, node using located_induction generalizing place with
    | step here node ih =>
      rcases mem_walkAt.1 h with hevent | ⟨hkind, visit, hvisit, hevent⟩
      · rw [hevent]
        exact .root
      · exact .of_part hkind hvisit (ih visit.2 (snd_mem_of_mem_walked hvisit) hevent)
  · obtain ⟨phase, found, place', position⟩ := event
    intro h
    dsimp only at h
    induction h generalizing phase with
    | root => exact mem_walkAt.2 (Or.inl rfl)
    | @child position node' place' i j field below h hkind hfield hslot hbelow ih =>
      -- the walk through the parent is met, and the node in it
      have hvisit : (field.slot, (i, j) :: position, below) ∈ walked (node'.parts position) :=
        mem_walked_parts.2 ⟨i, j, field, hfield, rfl, hslot, hbelow, rfl⟩
      apply (walkAt_infix_of_mem (ih .enter)).subset
      exact mem_walkAt.2 (Or.inr ⟨hkind, _, hvisit, mem_walkAt.2 (Or.inl rfl)⟩)

theorem Remains.suffix (h : root.Remains skips start above position node place) : start <:+ position := by
  induction h with
  | root => exact List.suffix_rfl
  | child _ _ _ _ _ ih => exact ih.trans (List.suffix_cons _ _)

theorem Remains.place_eq_none_iff (h : root.Remains skips [] none position node place) :
    place = none ↔ position = [] := by
  cases h <;> simp

/-- Both events of a node lie between those of its parent. -/
theorem Remains.sublist {step : Nat × Nat} {parent : Node} {slot : Slot}
    (h : root.Remains skips [] none (step :: here) below (some ⟨parent, slot⟩)) :
    ∃ place, List.Sublist
      [⟨.enter, parent, place, here⟩, ⟨.enter, below, some ⟨parent, slot⟩, step :: here⟩,
        ⟨.leave, below, some ⟨parent, slot⟩, step :: here⟩, ⟨.leave, parent, place, here⟩]
      (root.walkAt skips [] none) := by
  cases h with
  | @child _ _ place i j field _ hparent hkind hfield hslot hbelow =>
    have hvisit : (field.slot, (i, j) :: here, below) ∈ walked (parent.parts here) :=
      mem_walked_parts.2 ⟨i, j, field, hfield, rfl, hslot, hbelow, rfl⟩
    obtain ⟨before, after, hwalk⟩ := exists_walkAt_eq hkind hvisit place
    have hmet : (⟨.enter, parent, place, here⟩ : Event) ∈ root.walkAt skips [] none :=
      mem_walkAt_iff_remains.2 hparent
    -- the walk through the parent is a stretch of the walk, and the part is walked within it
    refine ⟨place, List.Sublist.trans ?_ (walkAt_infix_of_mem hmet).sublist⟩
    dsimp only
    rw [hwalk, below.walkAt_eq, List.append_assoc]
    refine .cons_cons _ ((List.Sublist.cons_cons _ ?_).trans (List.sublist_append_right before _))
    exact (List.sublist_append_right _ [_]).append (List.sublist_append_right after [_])

end Node

/-! ## Nesting and order -/

/-- Events are nested: each event that enters a node is followed, after events that are nested themselves, by
the event that leaves the same node, in the same place. -/
inductive Event.Nested : List Event → Prop
  | nil : Nested []
  | around {event : Event} {inner rest : List Event} (henter : event.phase = .enter) (hinner : Nested inner)
    (hrest : Nested rest) : Nested (event :: (inner ++ { event with phase := .leave } :: rest))

theorem Address.Before.append_left {address other : Address} (h : address.Before other) (front : Address) :
    Address.Before (front ++ address) (front ++ other) :=
  List.Lex.append_left _ h front

namespace Event

theorem Nested.append {events more : List Event} (h : Nested events) (hmore : Nested more) :
    Nested (events ++ more) := by
  induction h with
  | nil => exact hmore
  | @around event inner rest henter hinner _ _ ih =>
    rw [List.cons_append, List.append_assoc, List.cons_append]
    exact .around henter hinner ih

theorem Nested.flatMap {α : Type} {items : List α} {f : α → List Event}
    (h : ∀ item ∈ items, Nested (f item)) : Nested (items.flatMap f) := by
  induction items with
  | nil => exact .nil
  | cons item items ih =>
    obtain ⟨hitem, hitems⟩ := List.forall_mem_cons.1 h
    rw [List.flatMap_cons]
    exact hitem.append (ih hitems)

/-- What holds of two events if the first comes first: they are not the same event of the same node, and if
they enter nodes, the first node comes first in preorder. -/
structure Precedes (event other : Event) : Prop where
  distinct : (event.phase, event.position) ≠ (other.phase, other.position)
  preorder : event.phase = .enter → other.phase = .enter →
    Address.Before event.position.reverse other.position.reverse

section

variable {event other : Event} {here : Position} {step step' : Nat × Nat}

/-- A node comes before what is below it. -/
theorem before_of_suffix {below : Position} (h : step :: here <:+ below) :
    Address.Before here.reverse below.reverse := by
  obtain ⟨rest, rfl⟩ := h
  have hnil : Address.Before [] (step :: rest.reverse) := .nil
  simpa using hnil.append_left here.reverse

theorem ne_of_suffix {below : Position} (h : step :: here <:+ below) : here ≠ below := by
  rintro rfl
  have hlength := h.length_le
  rw [List.length_cons] at hlength
  omega

/-- What is below one part of a node comes before what is below a later one. -/
theorem Precedes.of_steps (h : step :: here <:+ event.position) (h' : step' :: here <:+ other.position)
    (hstep : Prod.Lex (· < ·) (· < ·) step step') : event.Precedes other := by
  obtain ⟨rest, hrest⟩ := h
  obtain ⟨rest', hrest'⟩ := h'
  constructor
  · intro heq
    rw [← hrest, ← hrest', Prod.mk.injEq] at heq
    -- two positions that are the same have the same step at the same depth
    obtain ⟨-, hsame⟩ := List.append_inj' heq.2 (by simp)
    obtain rfl : step = step' := (List.cons.inj hsame).1
    rcases hstep with ⟨_, _, hlt⟩ | ⟨_, hlt⟩
    · exact Nat.lt_irrefl _ hlt
    · exact Nat.lt_irrefl _ hlt
  · intro _ _
    have hrel : Address.Before (step :: rest.reverse) (step' :: rest'.reverse) := .rel hstep
    rw [← hrest, ← hrest']
    simpa using hrel.append_left here.reverse

/-- A node is entered before all that is below it is met, and left after. -/
theorem pairwise_around {node : Node} {place : Option Place} {inner : List Event}
    (hinner : inner.Pairwise Precedes) (hbelow : ∀ event ∈ inner, ∃ step, step :: here <:+ event.position) :
    List.Pairwise Precedes (⟨.enter, node, place, here⟩ :: inner ++ [⟨.leave, node, place, here⟩]) := by
  rw [List.cons_append, List.pairwise_cons, List.pairwise_append]
  refine ⟨fun event hevent => ?_, hinner, List.pairwise_singleton _ _, fun event hevent other hother => ?_⟩
  · rcases List.mem_append.1 hevent with hevent | hevent
    · obtain ⟨step, hstep⟩ := hbelow event hevent
      exact ⟨fun heq => ne_of_suffix hstep (congrArg Prod.snd heq), fun _ _ => before_of_suffix hstep⟩
    · rw [List.mem_singleton.1 hevent]
      exact ⟨by simp, nofun⟩
  · rw [List.mem_singleton.1 hother]
    obtain ⟨step, hstep⟩ := hbelow event hevent
    exact ⟨fun heq => ne_of_suffix hstep (congrArg Prod.snd heq).symm, nofun⟩

end

end Event

namespace Node

variable {skips : Kind → Bool} {node : Node} {here : Position} {place : Option Place}

theorem nested_walkAt : Event.Nested (node.walkAt skips here place) := by
  induction here, node using located_induction generalizing place with
  | step here node ih =>
    rw [walkAt_eq]
    refine .around rfl ?_ .nil
    split
    · exact .nil
    · exact .flatMap fun visit hvisit => ih visit.2 (snd_mem_of_mem_walked hvisit)

/-- The parts of a node come in the order of their positions. -/
theorem pairwise_parts (node : Node) (here : Position) :
    (walked (node.parts here)).Pairwise fun visit other =>
      ∃ step step', visit.2.1 = step :: here ∧ other.2.1 = step' :: here ∧
        Prod.Lex (· < ·) (· < ·) step step' := by
  have hmapIdx : ∀ {α β : Type} {R : β → β → Prop} {f : Nat → α → β} (items : List α),
      (∀ i i' a a', i < i' → R (f i a) (f i' a')) → (items.mapIdx f).Pairwise R := by
    intro α β R f items h
    rw [List.pairwise_iff_getElem]
    intro i i' hi hi' hlt
    rw [List.getElem_mapIdx, List.getElem_mapIdx]
    exact h i i' _ _ hlt
  unfold walked parts
  rw [List.pairwise_flatMap]
  constructor
  · intro part hpart
    obtain ⟨i, hi, rfl⟩ := List.mem_mapIdx.1 (List.mem_filter.1 hpart).1
    rw [List.pairwise_map]
    exact hmapIdx _ fun j j' _ _ hlt => ⟨(i, j), (i, j'), rfl, rfl, .right i hlt⟩
  · refine List.Pairwise.filter _ (hmapIdx _ fun i i' field field' hlt => ?_)
    intro visit hvisit other hother
    obtain ⟨part, hpart, rfl⟩ := List.mem_map.1 hvisit
    obtain ⟨part', hpart', rfl⟩ := List.mem_map.1 hother
    obtain ⟨j, hj, rfl⟩ := List.mem_mapIdx.1 hpart
    obtain ⟨j', hj', rfl⟩ := List.mem_mapIdx.1 hpart'
    exact ⟨(i, j), (i', j'), rfl, rfl, .left j j' hlt⟩

/-- **Events come in order**, and none comes twice. -/
theorem pairwise_walkAt : (node.walkAt skips here place).Pairwise Event.Precedes := by
  induction here, node using located_induction generalizing place with
  | step here node ih =>
    -- what is met within a part stands below the position of the part
    have hbelow : ∀ visit ∈ walked (node.parts here),
        ∀ event ∈ visit.2.2.walkAt skips visit.2.1 (some ⟨node, visit.1⟩),
          ∃ step, visit.2.1 = step :: here ∧ step :: here <:+ event.position := by
      intro visit hvisit event hevent
      obtain ⟨i, j, field, -, -, -, -, hposition⟩ := mem_walked_parts.1 hvisit
      exact ⟨(i, j), hposition, hposition ▸ (mem_walkAt_iff_remains.1 hevent).suffix⟩
    have hparts : ((walked (node.parts here)).flatMap fun visit =>
        visit.2.2.walkAt skips visit.2.1 (some ⟨node, visit.1⟩)).Pairwise Event.Precedes := by
      refine List.pairwise_flatMap.2 ⟨fun visit hvisit => ?_, ?_⟩
      · exact ih visit.2 (snd_mem_of_mem_walked hvisit)
      · refine (node.pairwise_parts here).imp_of_mem fun {visit other} hvisit hother hsteps => ?_
        intro event hevent event' hevent'
        obtain ⟨step, step', hposition, hposition', hlt⟩ := hsteps
        obtain ⟨_, hstep, hsuffix⟩ := hbelow visit hvisit event hevent
        obtain ⟨_, hstep', hsuffix'⟩ := hbelow other hother event' hevent'
        cases hposition.symm.trans hstep
        cases hposition'.symm.trans hstep'
        exact .of_steps hsuffix hsuffix' hlt
    rw [walkAt_eq]
    split
    · exact Event.pairwise_around .nil nofun
    · refine Event.pairwise_around hparts fun event hevent => ?_
      obtain ⟨visit, hvisit, hevent⟩ := List.mem_flatMap.1 hevent
      obtain ⟨step, -, hsuffix⟩ := hbelow visit hvisit event hevent
      exact ⟨step, hsuffix⟩

end Node

/-- What the events of a walk are: they are those of the nodes that remain, each of which is entered once and
left once; they are nested, and those of a node lie between those of its parent; nodes are entered in
preorder; and the root is the only node without a parent and a slot. -/
structure Tour (skips : Kind → Bool) (root : Node) (events : List Event) : Prop where
  mem_iff : ∀ event, event ∈ events ↔ root.Remains skips [] none event.position event.node event.place
  once : (events.map fun event => (event.phase, event.position)).Nodup
  nested : Event.Nested events
  between : ∀ (step : Nat × Nat) (here : Position) (parent below : Node) (slot : Slot),
    root.Remains skips [] none (step :: here) below (some ⟨parent, slot⟩) →
      ∃ place, List.Sublist
        [⟨.enter, parent, place, here⟩, ⟨.enter, below, some ⟨parent, slot⟩, step :: here⟩,
          ⟨.leave, below, some ⟨parent, slot⟩, step :: here⟩, ⟨.leave, parent, place, here⟩]
        events
  preorder : ((events.filter fun event => event.phase = .enter).map fun event =>
    event.position.reverse).Pairwise Address.Before
  root : ∀ event ∈ events, event.place = none ↔ event.position = []

/-- **A walk is a tour of the pruned tree.** The events of a walk are those of a walk that skips nothing,
through the tree in which skipped nodes have no fields and no node has a field for an expression or a
pattern; and they enter and leave each node of it once, nested as the nodes are and in preorder. -/
theorem walk_tour (skips : Kind → Bool) (root : Node) :
    (root.walk skips).map (Event.pruned skips root.prunedPosition) =
        (root.pruned skips).walk (fun _ => false) ∧
      Tour skips root (root.walk skips) := by
  change (root.walkAt skips [] none).map _ = (root.pruned skips).walkAt _ [] none ∧
    Tour skips root (root.walkAt skips [] none)
  refine ⟨root.walkAt_pruned skips [] [] none _ ?_, ?_⟩
  · intro address
    simp [Node.prunedPosition]
  · exact
      { mem_iff := fun event => Node.mem_walkAt_iff_remains
        once := by
          rw [List.nodup_iff_pairwise_ne, List.pairwise_map]
          exact Node.pairwise_walkAt.imp Event.Precedes.distinct
        nested := Node.nested_walkAt
        between := fun _ _ _ _ _ h => h.sublist
        preorder := by
          rw [List.pairwise_map, List.pairwise_filter]
          exact Node.pairwise_walkAt.imp fun h henter henter' =>
            h.preorder (of_decide_eq_true henter) (of_decide_eq_true henter')
        root := fun event hevent => (Node.mem_walkAt_iff_remains.1 hevent).place_eq_none_iff }

end TemplateCode
