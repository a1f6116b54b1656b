import TemplateCode.Code.Emit
import Mathlib.Data.List.Basic
import Mathlib.Data.Set.Function

/-!
# The nodes below a node

Every interpretation of a tree is a `Node.fold`, and those that need to tell nodes apart give each
node its position. Here the two are put together: `Node.parts` are the nodes in the fields of a node
with their positions, and the equations of `emit` are stated in terms of them.

* `emit_walk`, `emit_await`: the effect of a node in terms of the effects of its parts.
* `Node.positions`: the positions of all nodes of a tree.
* `Node.walkAt_eq`: a walk in terms of the walks through the parts.
* `Node.Apart`: the nodes of a tree are told apart by their owners, and none of them owns a block that
  is open already. This is what every statement about blocks and owners assumes.
-/

namespace TemplateCode

theorem map_mapIdx {α β γ : Type} (f : Nat → α → β) (g : β → γ) (items : List α) :
    (items.mapIdx f).map g = items.mapIdx fun i item => g (f i item) := by
  apply List.ext_getElem?
  simp [Function.comp_def]

theorem mapIdx_map {α β γ : Type} (f : α → β) (g : Nat → β → γ) (items : List α) :
    (items.map f).mapIdx g = items.mapIdx fun i item => g i (f item) := by
  apply List.ext_getElem?
  simp [Function.comp_def]

theorem mapIdx_const {α β : Type} (f : α → β) (items : List α) :
    (items.mapIdx fun _ item => f item) = items.map f := by
  apply List.ext_getElem?
  simp

/-- The same fields with `f` done to what they hold. -/
def mapBelow {α β : Type} (f : α → β) (below : List (Slot × List α)) : List (Slot × List β) :=
  below.map fun (slot, meanings) => (slot, meanings.map f)

theorem mapBelow_mapBelow {α β γ : Type} (f : α → β) (g : β → γ) (below : List (Slot × List α)) :
    mapBelow g (mapBelow f below) = mapBelow (fun meaning => g (f meaning)) below := by
  unfold mapBelow
  simp [Function.comp_def]

theorem flatMap_mapBelow {α β : Type} (f : α → β) (below : List (Slot × List α)) :
    (mapBelow f below).flatMap Prod.snd = (below.flatMap Prod.snd).map f := by
  unfold mapBelow
  rw [List.flatMap_map, List.map_flatMap]

theorem mapBelow_congr {α β : Type} {f g : α → β} {below : List (Slot × List α)}
    (h : ∀ meaning ∈ below.flatMap Prod.snd, f meaning = g meaning) :
    mapBelow f below = mapBelow g below := by
  apply List.map_congr_left
  intro field hfield
  have hfield' : field.2.map f = field.2.map g := by
    apply List.map_congr_left
    intro meaning hmeaning
    exact h meaning (List.mem_flatMap.2 ⟨field, hfield, hmeaning⟩)
  simp only [hfield']

theorem walked_mapBelow {α β : Type} (f : α → β) (below : List (Slot × List α)) :
    walked (mapBelow f below) = (walked below).map fun (slot, meaning) => (slot, f meaning) := by
  unfold walked mapBelow
  rw [List.filter_map, List.flatMap_map, List.map_flatMap]
  simp only [List.map_map]
  rfl

theorem firstIn_mapBelow {α β : Type} (f : α → β) (slot : Slot) (below : List (Slot × List α)) :
    firstIn slot (mapBelow f below) = (firstIn slot below).map f := by
  unfold firstIn mapBelow
  rw [List.find?_map]
  simp only [Function.comp_def]
  cases below.find? fun (candidate, _) => decide (candidate = slot) <;> simp

theorem catchBranch_mapBelow {α β : Type} (f : α → β) (node : Node) (below : List (Slot × List α)) :
    catchBranch node (mapBelow f below) = (catchBranch node below).map f := by
  unfold catchBranch
  rw [firstIn_mapBelow]
  split
  · split <;> rfl
  · rfl

theorem snd_mem_of_mem_walked {α : Type} {below : List (Slot × List α)} {visit : Slot × α}
    (h : visit ∈ walked below) : visit.2 ∈ below.flatMap Prod.snd := by
  unfold walked at h
  obtain ⟨⟨slot, meanings⟩, hfield, hmem⟩ := List.mem_flatMap.1 h
  obtain ⟨meaning, hmeaning, rfl⟩ := List.mem_map.1 hmem
  exact List.mem_flatMap.2 ⟨_, (List.mem_filter.1 hfield).1, hmeaning⟩

theorem mem_of_firstIn {α : Type} {slot : Slot} {below : List (Slot × List α)} {meaning : α}
    (h : firstIn slot below = some meaning) : meaning ∈ below.flatMap Prod.snd := by
  unfold firstIn at h
  split at h
  · rename_i found meanings hfound
    exact List.mem_flatMap.2 ⟨_, List.mem_of_find?_eq_some hfound, List.mem_of_head? h⟩
  · cases h

theorem mem_of_catchBranch {α : Type} {node : Node} {below : List (Slot × List α)} {meaning : α}
    (h : catchBranch node below = some meaning) : meaning ∈ below.flatMap Prod.snd := by
  unfold catchBranch at h
  split at h
  · split at h
    · cases h
    · exact mem_of_firstIn h
  · cases h

/-- What is generated apart below an await block, with its slot, in the order it is spliced in. -/
def branches {α : Type} (node : Node) (below : List (Slot × List α)) : List (Slot × α) :=
  ((firstIn .pending below).map fun meaning => (Slot.pending, meaning)).toList ++
    ((firstIn .thenBranch below).map fun meaning => (Slot.thenBranch, meaning)).toList ++
    ((catchBranch node below).map fun meaning => (Slot.catchBranch, meaning)).toList

theorem snd_mem_of_mem_branches {α : Type} {node : Node} {below : List (Slot × List α)}
    {visit : Slot × α} (h : visit ∈ branches node below) : visit.2 ∈ below.flatMap Prod.snd := by
  unfold branches at h
  simp only [List.mem_append, Option.mem_toList, Option.map_eq_some_iff] at h
  rcases h with (⟨meaning, hmeaning, rfl⟩ | ⟨meaning, hmeaning, rfl⟩) | ⟨meaning, hmeaning, rfl⟩
  · exact mem_of_firstIn hmeaning
  · exact mem_of_firstIn hmeaning
  · exact mem_of_catchBranch hmeaning

/-! ## The steps of an await block -/

namespace AwaitStep

variable {ι α β : Type}

/-- The same step for other meanings of the branches. -/
def map (f : α → β) : AwaitStep ι α → AwaitStep ι β
  | edit operation => .edit operation
  | splice branch => .splice (branch.map f)

/-- The branch that a step splices in. -/
def branch? : AwaitStep ι α → Option α
  | edit _ => none
  | splice branch => branch

/-- The operations of await blocks, which name no owner. -/
inductive Plain : Edit ι → Prop
  | append (text : String) : Plain (.append text)
  | openBlock (header : String) : Plain (.openBlock header none)
  | close : Plain (.close none)

end AwaitStep

section

variable {ι α β : Type} (read : Reading) (node : Node)

theorem awaitSteps_mapBelow (f : α → β) (below : List (Slot × List α)) :
    awaitSteps (ι := ι) read node (mapBelow f below) =
      (awaitSteps read node below).map (AwaitStep.map f) := by
  unfold awaitSteps
  rw [firstIn_mapBelow, firstIn_mapBelow, catchBranch_mapBelow]
  cases catchBranch node below <;> rfl

/-- **A step of an await block** is one of few operations, or splices in one of the branches. -/
theorem awaitSteps_cases {read : Reading} {node : Node} {below : List (Slot × List α)}
    {step : AwaitStep ι α} (h : step ∈ awaitSteps read node below) :
    (∃ edit, AwaitStep.Plain edit ∧ step = .edit edit) ∨
      ∃ branch, (∀ meaning ∈ branch, ∃ slot, (slot, meaning) ∈ branches node below) ∧
        step = .splice branch := by
  unfold awaitSteps at h
  rw [List.mem_append] at h
  rcases h with h | h
  · simp only [List.mem_cons, List.not_mem_nil, or_false] at h
    rcases h with rfl | rfl | rfl | rfl | rfl
    · exact Or.inl ⟨_, .openBlock _, rfl⟩
    · exact Or.inr ⟨_, fun meaning h => ⟨.pending, by simp_all [branches]⟩, rfl⟩
    · exact Or.inl ⟨_, .append _, rfl⟩
    · exact Or.inr ⟨_, fun meaning h => ⟨.thenBranch, by simp_all [branches]⟩, rfl⟩
    · exact Or.inl ⟨_, .close, rfl⟩
  · cases hbranch : catchBranch node below with
    | none =>
      rw [hbranch] at h
      exact Or.inl ⟨_, .append _, List.mem_singleton.1 h⟩
    | some branch =>
      rw [hbranch] at h
      simp only [List.mem_cons, List.not_mem_nil, or_false] at h
      rcases h with rfl | rfl | rfl
      · exact Or.inl ⟨_, .openBlock _, rfl⟩
      · exact Or.inr ⟨some branch, fun meaning h => ⟨.catchBranch, by simp_all [branches]⟩, rfl⟩
      · exact Or.inl ⟨_, .close, rfl⟩

theorem mem_of_mem_awaitSteps {read : Reading} {node : Node} {below : List (Slot × List α)} {meaning : α}
    (h : AwaitStep.splice (ι := ι) (some meaning) ∈ awaitSteps read node below) :
    meaning ∈ below.flatMap Prod.snd := by
  rcases awaitSteps_cases h with ⟨edit, -, hstep⟩ | ⟨branch, hbranch, hstep⟩
  · cases hstep
  · cases hstep
    obtain ⟨slot, hmem⟩ := hbranch meaning rfl
    exact snd_mem_of_mem_branches hmem

/-- What is spliced in are the branches, in their order. -/
theorem flatMap_awaitSteps (below : List (Slot × List α)) (f : α → List β) :
    ((awaitSteps (ι := ι) read node below).flatMap fun step => step.branch?.toList.flatMap f) =
      (branches node below).flatMap fun visit => f visit.2 := by
  unfold awaitSteps branches
  cases firstIn .pending below <;> cases firstIn .thenBranch below <;>
    cases catchBranch node below <;> simp [AwaitStep.branch?]

theorem awaitBlock_mapBelow [DecidableEq ι] (f : α → Emission ι) (below : List (Slot × List α))
    (code : Code ι) :
    awaitBlock read node (mapBelow f below) code =
      (awaitSteps read node below).foldl (fun code step => (step.map f).run code) code := by
  unfold awaitBlock
  rw [awaitSteps_mapBelow, List.foldl_map]

end

/-- What the generator visits directly below a node, with its slot: the branches of an await block,
and what is walked in any other node. -/
def visits {α : Type} (node : Node) (below : List (Slot × List α)) : List (Slot × α) :=
  if node.kind = .awaitBlock then branches node below else walked below

theorem visits_await {α : Type} {node : Node} (h : node.kind = .awaitBlock)
    (below : List (Slot × List α)) : visits node below = branches node below :=
  if_pos h

theorem visits_walk {α : Type} {node : Node} (h : node.kind ≠ .awaitBlock)
    (below : List (Slot × List α)) : visits node below = walked below :=
  if_neg h

theorem visits_mapBelow {α β : Type} (f : α → β) (node : Node) (below : List (Slot × List α)) :
    visits node (mapBelow f below) =
      (visits node below).map fun (slot, meaning) => (slot, f meaning) := by
  unfold visits branches
  rw [walked_mapBelow, firstIn_mapBelow, firstIn_mapBelow, catchBranch_mapBelow]
  split
  · cases firstIn .pending below <;> cases firstIn .thenBranch below <;>
      cases catchBranch node below <;> rfl
  · rfl

theorem snd_mem_of_mem_visits {α : Type} {node : Node} {below : List (Slot × List α)}
    {visit : Slot × α} (h : visit ∈ visits node below) : visit.2 ∈ below.flatMap Prod.snd := by
  unfold visits at h
  split at h
  · exact snd_mem_of_mem_branches h
  · exact snd_mem_of_mem_walked h

namespace Node

/-- The fields of a node at a position, each node in them with its own position. -/
def parts (here : Position) (node : Node) : List (Slot × List (Position × Node)) :=
  node.fields.mapIdx fun i field =>
    (field.slot, field.nodes.mapIdx fun j below => ((i, j) :: here, below))

/-- The nodes in the fields of a node, with their positions. -/
def held (here : Position) (node : Node) : List (Position × Node) :=
  (node.parts here).flatMap Prod.snd

theorem mapBelow_parts {α : Type} (f : Position × Node → α) (here : Position) (node : Node) :
    mapBelow f (node.parts here) =
      node.fields.mapIdx fun i field =>
        (field.slot, field.nodes.mapIdx fun j below => f ((i, j) :: here, below)) := by
  unfold mapBelow parts
  simp only [map_mapIdx]

theorem locate_fields {α : Type} (here : Position) (node : Node) (meaning : Node → Position → α) :
    locate here (node.fields.map fun field => (field.slot, field.nodes.map meaning)) =
      mapBelow (fun part => meaning part.2 part.1) (node.parts here) := by
  unfold locate
  simp only [mapBelow_parts, mapIdx_map]

theorem map_fields {α : Type} (here : Position) (node : Node) (meaning : Node → α) :
    (node.fields.map fun field => (field.slot, field.nodes.map meaning)) =
      mapBelow (fun part => meaning part.2) (node.parts here) := by
  simp only [mapBelow_parts, mapIdx_const]

theorem parts_append (here below : Position) (node : Node) :
    node.parts (below ++ here) =
      mapBelow (fun part => (part.1 ++ here, part.2)) (node.parts below) := by
  rw [mapBelow_parts]
  rfl

theorem mem_held {here : Position} {node : Node} {part : Position × Node}
    (h : part ∈ node.held here) :
    (∃ i j, part.1 = (i, j) :: here) ∧ ∃ field ∈ node.fields, part.2 ∈ field.nodes := by
  unfold held parts at h
  obtain ⟨⟨slot, nodes⟩, hfield, hpart⟩ := List.mem_flatMap.1 h
  obtain ⟨i, hi, hfield⟩ := List.mem_mapIdx.1 hfield
  cases hfield
  obtain ⟨j, hj, rfl⟩ := List.mem_mapIdx.1 hpart
  exact ⟨⟨i, j, rfl⟩, node.fields[i], List.getElem_mem hi, List.getElem_mem hj⟩

/-- A property that passes from the nodes in the fields of a node to the node holds of every tree at
every position. -/
theorem located_induction {P : Position → Node → Prop}
    (step : ∀ here node, (∀ part ∈ node.held here, P part.1 part.2) → P here node) :
    ∀ here node, P here node := by
  intro here node
  induction node using Node.induction generalizing here with
  | step node ih =>
    apply step
    intro part hpart
    obtain ⟨-, field, hfield, hnode⟩ := mem_held hpart
    exact ih field hfield part.2 hnode part.1

/-! ## Positions -/

/-- The positions of the nodes of a tree whose root is at a position. -/
def positions (root : Node) : Position → List Position :=
  root.fold fun _ below here => here :: ((locate here below).flatMap Prod.snd).flatten

theorem mem_positions {here p : Position} {node : Node} :
    p ∈ node.positions here ↔
      p = here ∨ ∃ part ∈ node.held here, p ∈ part.2.positions part.1 := by
  unfold positions
  rw [fold_eq, locate_fields, List.mem_cons, List.mem_flatten, flatMap_mapBelow]
  simp [held]

theorem here_mem_positions (here : Position) (node : Node) : here ∈ node.positions here :=
  mem_positions.2 (Or.inl rfl)

theorem positions_of_held {here p : Position} {node : Node} {part : Position × Node}
    (hpart : part ∈ node.held here) (hp : p ∈ part.2.positions part.1) : p ∈ node.positions here :=
  mem_positions.2 (Or.inr ⟨part, hpart, hp⟩)

theorem suffix_of_mem_positions {here p : Position} {node : Node} (h : p ∈ node.positions here) :
    here <:+ p := by
  induction here, node using located_induction with
  | step here node ih =>
    rcases mem_positions.1 h with rfl | ⟨part, hpart, hp⟩
    · exact List.suffix_rfl
    · obtain ⟨⟨i, j, hposition⟩, -⟩ := mem_held hpart
      have hsuffix := ih part hpart hp
      rw [hposition] at hsuffix
      exact (List.suffix_cons (i, j) here).trans hsuffix

/-- A node is not among the nodes in its fields. -/
theorem ne_of_mem_positions {here p : Position} {node : Node} {part : Position × Node}
    (hpart : part ∈ node.held here) (hp : p ∈ part.2.positions part.1) : p ≠ here := by
  rintro rfl
  obtain ⟨⟨i, j, hposition⟩, -⟩ := mem_held hpart
  have hlength := (suffix_of_mem_positions hp).length_le
  rw [hposition, List.length_cons] at hlength
  omega

end Node

/-! ## Walks -/

namespace Node

/-- The events of a walk through a tree that stands below another node. -/
def walkAt (skips : Kind → Bool) (root : Node) (here : Position) (place : Option Place) : List Event :=
  root.fold (walk.visit skips) here place

/-- **A walk in terms of the walks through the parts**, which lie between the two events of the node. -/
theorem walkAt_eq (skips : Kind → Bool) (node : Node) (here : Position) (place : Option Place) :
    node.walkAt skips here place =
      ⟨.enter, node, place, here⟩ ::
        (if skips node.kind then []
        else (walked (node.parts here)).flatMap fun visit =>
          visit.2.2.walkAt skips visit.2.1 (some ⟨node, visit.1⟩)) ++
        [⟨.leave, node, place, here⟩] := by
  unfold walkAt
  rw [fold_eq, walk.visit, locate_fields, walked_mapBelow, List.flatMap_map]

/-- The nodes in the slots of a node that are walked, in order. -/
def content (node : Node) : List Node :=
  (node.fields.filter fun field => !field.slot.isFragment).flatMap Field.nodes

theorem exists_field_of_mem_content {node below : Node} (h : below ∈ node.content) :
    ∃ field ∈ node.fields, below ∈ field.nodes := by
  unfold content at h
  obtain ⟨field, hfield, hbelow⟩ := List.mem_flatMap.1 h
  exact ⟨field, (List.mem_filter.1 hfield).1, hbelow⟩

theorem map_walked_fields {α : Type} (f : Node → α) (node : Node) :
    (walked (node.fields.map fun field => (field.slot, field.nodes.map f))).map Prod.snd =
      node.content.map f := by
  unfold walked content
  rw [List.filter_map, List.flatMap_map, List.map_flatMap, List.map_flatMap]
  simp [Function.comp_def]

theorem map_walked_parts (here : Position) (node : Node) :
    (walked (node.parts here)).map (fun visit => visit.2.2) = node.content := by
  have hfields := node.map_walked_fields id
  rw [node.map_fields here, walked_mapBelow, List.map_map, List.map_id] at hfields
  exact hfields

/-- A walk meets the same nodes wherever the tree stands. -/
theorem map_node_walkAt (skips : Kind → Bool) (root : Node) (here : Position) (place : Option Place) :
    (root.walkAt skips here place).map Event.node = (root.walk skips).map Event.node := by
  change _ = (root.walkAt skips [] none).map Event.node
  induction root using Node.induction generalizing here place with
  | step node ih =>
    -- the walks through the parts are compared with walks that start there
    have hparts : ∀ at' : Position,
        ((walked (node.parts at')).flatMap fun visit =>
          (visit.2.2.walkAt skips visit.2.1 (some ⟨node, visit.1⟩)).map Event.node) =
        node.content.flatMap fun below => (below.walkAt skips [] none).map Event.node := by
      intro at'
      rw [← node.map_walked_parts at', List.flatMap_map]
      refine List.flatMap_congr fun visit hvisit => ?_
      obtain ⟨-, field, hfield, hbelow⟩ := mem_held (snd_mem_of_mem_walked hvisit)
      exact ih field hfield _ hbelow _ _
    rw [walkAt_eq, walkAt_eq]
    split
    · rfl
    · simp only [List.map_cons, List.map_append, List.map_nil, List.map_flatMap, hparts]

end Node

variable {ι : Type}

/-- If the nodes of a tree are told apart, so are those below one of its nodes. -/
theorem Node.injOn_part {identify : Position → ι} {node : Node} {here : Position}
    (hinj : Set.InjOn identify { p | p ∈ node.positions here }) {part : Position × Node}
    (hpart : part ∈ node.held here) :
    Set.InjOn identify { p | p ∈ part.2.positions part.1 } :=
  hinj.mono fun _ hp => positions_of_held hpart hp

/-- The nodes of a tree are told apart by their owners, and none of them owns one of the given
blocks. -/
structure Node.Apart (identify : Position → ι) (root : Node) (here : Position)
    (frames : List (Option ι)) : Prop where
  injective : Set.InjOn identify { p | p ∈ root.positions here }
  foreign : ∀ p ∈ root.positions here, some (identify p) ∉ frames

namespace Node.Apart

variable {identify : Position → ι} {node : Node} {here : Position} {frames : List (Option ι)}

theorem of_id (root : Node) (here : Position) : root.Apart id here [] :=
  ⟨fun _ _ _ _ h => h, fun _ _ => List.not_mem_nil⟩

theorem here_foreign (h : node.Apart identify here frames) : some (identify here) ∉ frames :=
  h.foreign here (node.here_mem_positions here)

/-- A node in a field of a node stays apart when its parent has opened blocks. -/
theorem part (h : node.Apart identify here frames) {part : Position × Node}
    (hpart : part ∈ node.held here) {frames' : List (Option ι)}
    (hsub : ∀ frame ∈ frames', frame = some (identify here) ∨ frame ∈ frames) :
    part.2.Apart identify part.1 frames' := by
  refine ⟨injOn_part h.injective hpart, ?_⟩
  intro p hp hmem
  have hpos := positions_of_held hpart hp
  rcases hsub _ hmem with hown | hold
  · have hown' : identify p = identify here := Option.some.inj hown
    exact ne_of_mem_positions hpart hp (h.injective hpos (node.here_mem_positions here) hown')
  · exact h.foreign p hpos hold

/-- So it does when some of the blocks have been closed again. -/
theorem part_of_suffix (h : node.Apart identify here frames) {part : Position × Node}
    (hpart : part ∈ node.held here) {own : Nat} {outer frames' : List (Option ι)}
    (hframes : frames' <:+ List.replicate own (some (identify here)) ++ outer)
    (houter : outer <:+ frames) : part.2.Apart identify part.1 frames' := by
  refine h.part hpart fun frame hframe => ?_
  rcases List.mem_append.1 (hframes.subset hframe) with hown | hold
  · exact Or.inl (List.eq_of_mem_replicate hown)
  · exact Or.inr (houter.subset hold)

end Node.Apart

/-! ## The effect of a node -/

variable [DecidableEq ι]

theorem emit_eq (read : Reading) (identify : Position → ι) (node : Node) (here : Position) :
    emit read identify node here =
      emitNode read node
        (mapBelow (fun part => emit read identify part.2 part.1) (node.parts here))
        (identify here) := by
  unfold emit
  rw [Node.fold_eq, Node.locate_fields]

/-- **The effect of a node that is walked**: its opening, the nodes that a walk visits in it, and the
end of its blocks. -/
theorem emit_walk (read : Reading) (identify : Position → ι) {node : Node} (here : Position)
    (h : node.kind ≠ .awaitBlock) (parent : Option (Parent ι)) (code : Code ι) :
    emit read identify node here parent code =
      ((walked (node.parts here)).foldl
        (fun code visit =>
          emit read identify visit.2.2 visit.2.1 (some ⟨node.kind, identify here⟩) code)
        (code.applyAll
          (opening read node (identify here) (parent.map Parent.kind)
            (isChained parent code)))).closeOwned (identify here) := by
  rw [emit_eq]
  unfold emitNode emitContent
  rw [if_neg h, walked_mapBelow, List.foldl_map]

/-- **The effect of an await block**, whose branches are generated apart. -/
theorem emit_await (read : Reading) (identify : Position → ι) {node : Node} (here : Position)
    (h : node.kind = .awaitBlock) (parent : Option (Parent ι)) (code : Code ι) :
    emit read identify node here parent code =
      (awaitBlock read node
        (mapBelow (fun part => emit read identify part.2 part.1) (node.parts here))
        code).closeOwned (identify here) := by
  rw [emit_eq]
  unfold emitNode
  rw [if_pos h]

end TemplateCode
