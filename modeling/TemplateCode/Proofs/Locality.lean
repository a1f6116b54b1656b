import TemplateCode.Proofs.Parts
import Mathlib.Data.List.Forall2

/-!
# What code depends on

The code of a tree depends on the source and on the offsets in the tree only through the texts that
are read. What is below an expression or a pattern, and where a node stands in the source, does not
matter.

* `Node.SideBySide`: two nodes with the same slots, and with nodes that belong together.
* `opening_congr`, `awaitSteps_congr`: what a node does depends on what is found in it.
* `Node.Alike`: two trees over two sources in which the generator finds the same.
* `emit_congr`: such trees have the same effect.
* `Node.mapSpan` changes all ranges of a tree; `Span.slice_shift` says that a range moved along with
  its source selects the same.
* `fragment_of_texts`: the code depends on the texts alone.
-/

namespace TemplateCode

namespace Kind

/-- The slots of which the text is read in a node of a kind. -/
def textSlots (kind : Kind) : List Slot :=
  if kind = .awaitBlock then [.expression, .context, .value, .error] else [.expression, .context]

/-- Whether the nodes in a slot are visited, in a node of a kind. -/
def visitsSlot (kind : Kind) (slot : Slot) : Bool :=
  if kind = .awaitBlock then slot ∈ [.pending, .thenBranch, .catchBranch] else !slot.isFragment

theorem visitsSlot_of_ne {kind : Kind} (h : kind ≠ .awaitBlock) (slot : Slot) :
    kind.visitsSlot slot = !slot.isFragment :=
  if_neg h

end Kind

theorem map_eq_of_forall₂ {α β γ : Type} {R : α → β → Prop} {f : α → γ} {g : β → γ} {items : List α}
    {items' : List β} (h : List.Forall₂ R items items') (hfg : ∀ a b, R a b → f a = g b) :
    items.map f = items'.map g := by
  rw [← List.forall₂_eq_eq_eq, List.forall₂_map_left_iff, List.forall₂_map_right_iff]
  exact h.imp hfg

/-- Searching two lists side by side finds items that belong together, or nothing in either. -/
theorem find?_cases {α β : Type} {R : α → β → Prop} {items : List α} {items' : List β}
    (h : List.Forall₂ R items items') {p : α → Bool} {q : β → Bool}
    (hpq : ∀ a b, R a b → p a = q b) :
    (items.find? p = none ∧ items'.find? q = none) ∨
      ∃ a b, items.find? p = some a ∧ items'.find? q = some b ∧ R a b := by
  induction h with
  | nil => exact Or.inl ⟨rfl, rfl⟩
  | @cons a b _ _ hab _ ih =>
    rw [List.find?_cons, List.find?_cons, ← hpq a b hab]
    cases p a with
    | true => exact Or.inr ⟨a, b, rfl, rfl, hab⟩
    | false => exact ih

/-! ## Fields side by side -/

namespace Node

/-- Two nodes with the same slots in the same order, and with nodes that belong together in the slots
that are seen. -/
def SideBySide (sees : Slot → Bool) (R : Node → Node → Prop) (node node' : Node) : Prop :=
  List.Forall₂
    (fun field field' => field.slot = field'.slot ∧
      (sees field.slot = true → List.Forall₂ R field.nodes field'.nodes))
    node.fields node'.fields

namespace SideBySide

variable {sees : Slot → Bool} {R : Node → Node → Prop} {node node' : Node}

/-- Both nodes have no field of a slot, or the first such fields belong together. -/
theorem field?_cases (h : SideBySide sees R node node') (slot : Slot) :
    (node.field? slot = none ∧ node'.field? slot = none) ∨
      ∃ field field', node.field? slot = some field ∧ node'.field? slot = some field' ∧
        (sees slot = true → List.Forall₂ R field.nodes field'.nodes) := by
  unfold field?
  rcases find?_cases h (p := fun field => decide (field.slot = slot))
    (q := fun field => decide (field.slot = slot)) fun _ _ hfield => by rw [hfield.1] with
    hnone | ⟨field, field', hfield, hfield', hrel⟩
  · exact Or.inl hnone
  · have heq : field.slot = slot := by simpa using List.find?_some hfield
    exact Or.inr ⟨field, field', hfield, hfield', fun hslot => hrel.2 (heq ▸ hslot)⟩

theorem nodesIn (h : SideBySide sees R node node') {slot : Slot} (hslot : sees slot = true) :
    List.Forall₂ R (node.nodesIn slot) (node'.nodesIn slot) := by
  unfold Node.nodesIn
  rcases h.field?_cases slot with ⟨hnone, hnone'⟩ | ⟨field, field', hfield, hfield', hnodes⟩
  · rw [hnone, hnone']
    exact .nil
  · rw [hfield, hfield']
    exact hnodes hslot

theorem isSome_field? (h : SideBySide sees R node node') (slot : Slot) :
    (node.field? slot).isSome = (node'.field? slot).isSome := by
  rcases h.field?_cases slot with ⟨hnone, hnone'⟩ | ⟨field, field', hfield, hfield', -⟩
  · rw [hnone, hnone']
  · rw [hfield, hfield']
    rfl

end SideBySide

end Node

/-! ## What is found in a node -/

namespace Node

/-- Two nodes that look the same to the nodes that hold them. -/
structure LooksLike (read read' : Reading) (node node' : Node) : Prop where
  kind : node.kind = node'.kind
  name : node.name = node'.name
  skip : node.skip = node'.skip
  expression : node.expression read = node'.expression read'

variable {read read' : Reading} {node node' : Node}

theorem LooksLike.label (h : LooksLike read read' node node') : node.label = node'.label := by
  unfold Node.label
  rw [h.name]

theorem boundNames_congr
    (h : List.Forall₂ (LooksLike read read') node.attributes node'.attributes) :
    node.boundNames read = node'.boundNames read' := by
  have hdirectives : List.Forall₂ (LooksLike read read') node.letDirectives node'.letDirectives := by
    refine List.rel_filter ?_ h
    intro part part' hpart
    dsimp only
    rw [hpart.kind]
  refine map_eq_of_forall₂ hdirectives fun part part' hpart => ?_
  rw [hpart.expression, hpart.label]

theorem isSlotted_congr
    (h : List.Forall₂ (LooksLike read read') node.attributes node'.attributes) :
    node.isSlotted = node'.isSlotted := by
  have hlabels := map_eq_of_forall₂ h fun _ _ hpart => hpart.label
  have hany := congrArg (List.any · (· = "slot")) hlabels
  rw [List.any_map, List.any_map] at hany
  exact hany

theorem holdsOnlyIf_congr (h : List.Forall₂ (LooksLike read read') node.children node'.children) :
    node.holdsOnlyIf = node'.holdsOnlyIf := by
  unfold holdsOnlyIf
  generalize node.children = children, node'.children = children' at h
  rcases h with _ | ⟨hpart, _ | ⟨_, _⟩⟩
  · rfl
  · dsimp only
    rw [hpart.kind]
  · rfl

end Node

section

variable {ι : Type} {read read' : Reading} {node node' : Node}

open Node (LooksLike)

/-- Nodes begin with the same operations if the same is found in them. The children matter in an
alternative only. -/
theorem opening_congr (hnode : LooksLike read read' node node')
    (hcontext : node.textIn read .context = node'.textIn read' .context)
    (hattributes : List.Forall₂ (LooksLike read read') node.attributes node'.attributes)
    (hidentifiers :
      List.Forall₂ (LooksLike read read') (node.nodesIn .identifiers) (node'.nodesIn .identifiers))
    (hchildren : node.kind = .elseBlock →
      List.Forall₂ (LooksLike read read') node.children node'.children)
    (helse : (node.field? .elseBranch).isSome = (node'.field? .elseBranch).isSome) (owner : ι)
    (parent : Option Kind) (chained : Bool) :
    opening read node owner parent chained = opening read' node' owner parent chained := by
  have hscope : bindingScope read node owner = bindingScope read' node' owner := by
    unfold bindingScope
    rw [Node.boundNames_congr hattributes]
  have hlabels : ((node.nodesIn .identifiers).map fun identifier => Edit.declare identifier.label) =
      (node'.nodesIn .identifiers).map fun identifier => (.declare identifier.label : Edit ι) :=
    map_eq_of_forall₂ hidentifiers fun _ _ hpart => by rw [hpart.label]
  have halternative : node.kind = .elseBlock →
      elseBlock node owner parent = elseBlock node' owner parent := by
    intro hkind
    unfold elseBlock
    rw [Node.holdsOnlyIf_congr (hchildren hkind)]
  unfold opening ifBlock eachBlock Node.component Node.classCondition
  rw [← hnode.kind, hnode.expression, hnode.label, hcontext, hscope, hlabels,
    Node.isSlotted_congr hattributes, helse]
  split <;> first | rfl | exact halternative ‹_›

theorem catchBranch_congr {α : Type}
    (hbranch :
      List.Forall₂ (LooksLike read read') (node.nodesIn .catchBranch) (node'.nodesIn .catchBranch))
    {below below' : List (Slot × List α)}
    (hbelow : firstIn .catchBranch below = firstIn .catchBranch below') :
    catchBranch node below = catchBranch node' below' := by
  unfold catchBranch Node.child?
  rw [hbelow]
  generalize node.nodesIn .catchBranch = nodes, node'.nodesIn .catchBranch = nodes' at hbranch
  rcases hbranch with _ | ⟨hpart, _⟩
  · rfl
  · dsimp only [List.head?_cons]
    rw [hpart.skip]

/-- Await blocks go through the same steps if the same is found in them and their branches are the same. -/
theorem awaitSteps_congr {α : Type} (hnode : LooksLike read read' node node')
    (hvalue : node.textIn read .value = node'.textIn read' .value)
    (herror : node.textIn read .error = node'.textIn read' .error)
    (hbranch :
      List.Forall₂ (LooksLike read read') (node.nodesIn .catchBranch) (node'.nodesIn .catchBranch))
    {below below' : List (Slot × List α)}
    (hbelow : ∀ slot ∈ [Slot.pending, .thenBranch, .catchBranch],
      firstIn slot below = firstIn slot below') :
    awaitSteps (ι := ι) read node below = awaitSteps read' node' below' := by
  have hcatch := catchBranch_congr hbranch (hbelow .catchBranch (by simp))
  unfold awaitSteps awaitStatement catchHeader
  rw [hvalue, herror, hnode.expression, hbelow .pending (by simp), hbelow .thenBranch (by simp),
    hcatch]

end

/-! ## Trees in which the same is found -/

namespace Node

/-- Two nodes that are the same but for their ranges and for what they hold: the texts that are read
in them are the same, a text that is not there or cannot be read counting as empty. -/
structure Resembles (read read' : Reading) (node node' : Node) : Prop where
  kind : node.kind = node'.kind
  name : node.name = node'.name
  skip : node.skip = node'.skip
  texts : ∀ slot ∈ node.kind.textSlots, node.textIn read slot = node'.textIn read' slot

/-- Two trees that resemble each other node by node, as far as nodes are visited. They have the same
slots in the same order; of the slots that are not visited nothing else is asked. -/
def Alike (read read' : Reading) (root : Node) : Node → Prop :=
  root.fold fun node below node' =>
    node.Resembles read read' node' ∧
      List.Forall₂
        (fun (field : Slot × List (Node → Prop)) field' =>
          field.1 = field'.slot ∧
            (node.kind.visitsSlot field.1 = true →
              List.Forall₂ (fun alike below' => alike below') field.2 field'.nodes))
        below node'.fields

variable {read read' : Reading} {node node' : Node}

theorem alike_iff :
    node.Alike read read' node' ↔
      node.Resembles read read' node' ∧
        SideBySide node.kind.visitsSlot (Alike read read') node node' := by
  unfold Alike SideBySide
  rw [fold_eq, List.forall₂_map_left_iff]
  simp only [List.forall₂_map_left_iff]

namespace Alike

theorem resembles (h : node.Alike read read' node') : node.Resembles read read' node' :=
  (alike_iff.1 h).1

theorem textIn_eq (h : node.Alike read read' node') {slot : Slot}
    (hslot : slot ∈ node.kind.textSlots) : node.textIn read slot = node'.textIn read' slot :=
  h.resembles.texts slot hslot

theorem looksLike (h : node.Alike read read' node') : LooksLike read read' node node' where
  kind := h.resembles.kind
  name := h.resembles.name
  skip := h.resembles.skip
  expression := h.textIn_eq (by unfold Kind.textSlots; split <;> simp)

theorem nodesIn (h : node.Alike read read' node') {slot : Slot}
    (hslot : node.kind.visitsSlot slot = true) :
    List.Forall₂ (LooksLike read read') (node.nodesIn slot) (node'.nodesIn slot) :=
  ((alike_iff.1 h).2.nodesIn hslot).imp fun _ _ => looksLike

/-! ## Entering a node -/

variable {ι : Type}

/-- Nodes that look alike begin with the same operations. -/
theorem opening_eq (h : node.Alike read read' node') (hkind : node.kind ≠ .awaitBlock) (owner : ι)
    (parent : Option Kind) (chained : Bool) :
    opening read node owner parent chained = opening read' node' owner parent chained :=
  have hvisits := Kind.visitsSlot_of_ne hkind
  opening_congr h.looksLike (h.textIn_eq (by simp [Kind.textSlots, hkind]))
    (h.nodesIn (hvisits .attributes)) (h.nodesIn (hvisits .identifiers))
    (fun _ => h.nodesIn (hvisits .children)) ((alike_iff.1 h).2.isSome_field? .elseBranch) owner parent
    chained

end Alike

end Node

variable {ι : Type} {read read' : Reading} {node node' : Node}

/-! ## What is visited -/

theorem forall₂_mapIdx {α β γ δ : Type} {R : α → β → Prop} {S : γ → δ → Prop} {f : Nat → α → γ}
    {g : Nat → β → δ} {items : List α} {items' : List β} (h : List.Forall₂ R items items')
    (hfg : ∀ i a b, R a b → S (f i a) (g i b)) :
    List.Forall₂ S (items.mapIdx f) (items'.mapIdx g) := by
  induction h generalizing f g with
  | nil => exact .nil
  | cons hab _ ih =>
    rw [List.mapIdx_cons, List.mapIdx_cons]
    exact .cons (hfg 0 _ _ hab) (ih fun i a b => hfg (i + 1) a b)

/-- The same meanings below two nodes of a kind, as far as they are visited. -/
def SameVisits {α : Type} (kind : Kind) (below below' : List (Slot × List α)) : Prop :=
  List.Forall₂
    (fun field field' => field.1 = field'.1 ∧ (kind.visitsSlot field.1 = true → field.2 = field'.2))
    below below'

namespace SameVisits

variable {α : Type} {kind : Kind} {below below' : List (Slot × List α)}

theorem walked (h : SameVisits kind below below') (hkind : kind ≠ .awaitBlock) :
    walked below = walked below' := by
  unfold TemplateCode.walked
  induction h with
  | nil => rfl
  | @cons field field' _ _ hfield _ ih =>
    obtain ⟨slot, meanings⟩ := field
    obtain ⟨slot', meanings'⟩ := field'
    obtain ⟨rfl, hmeanings⟩ := hfield
    rw [List.filter_cons, List.filter_cons]
    dsimp only
    split
    · have hvisits : kind.visitsSlot slot = true := (Kind.visitsSlot_of_ne hkind slot).trans ‹_›
      obtain rfl : meanings = meanings' := hmeanings hvisits
      rw [List.flatMap_cons, List.flatMap_cons, ih]
    · exact ih

theorem firstIn (h : SameVisits kind below below') {slot : Slot} (hslot : kind.visitsSlot slot = true) :
    firstIn slot below = firstIn slot below' := by
  unfold TemplateCode.firstIn
  rcases find?_cases h (p := fun field => decide (field.1 = slot))
    (q := fun field => decide (field.1 = slot)) fun _ _ hfield => by rw [hfield.1] with
    ⟨hnone, hnone'⟩ | ⟨field, field', hfield, hfield', hrel⟩
  · rw [hnone, hnone']
  · have heq : field.1 = slot := by simpa using List.find?_some hfield
    rw [hfield, hfield']
    dsimp only
    rw [hrel.2 (heq ▸ hslot)]

end SameVisits

theorem sameVisits_parts {α : Type} (f f' : Position × Node → α) (here : Position) {kind : Kind}
    (h : List.Forall₂
      (fun field field' => field.slot = field'.slot ∧ (kind.visitsSlot field.slot = true →
        List.Forall₂ (fun below below' => ∀ p, f (p, below) = f' (p, below')) field.nodes field'.nodes))
      node.fields node'.fields) :
    SameVisits kind (mapBelow f (node.parts here)) (mapBelow f' (node'.parts here)) := by
  rw [Node.mapBelow_parts, Node.mapBelow_parts]
  refine forall₂_mapIdx h fun i field field' hfield => ⟨hfield.1, fun hvisits => ?_⟩
  rw [← List.forall₂_eq_eq_eq]
  exact forall₂_mapIdx (hfield.2 hvisits) fun j below below' hbelow => hbelow _

/-! ## Whole trees -/

theorem Node.Alike.awaitSteps_eq {α : Type} (h : node.Alike read read' node')
    (hkind : node.kind = .awaitBlock) {below below' : List (Slot × List α)}
    (hbelow : SameVisits node.kind below below') :
    awaitSteps (ι := ι) read node below = awaitSteps read' node' below' := by
  have hvisits : ∀ slot ∈ [Slot.pending, .thenBranch, .catchBranch],
      node.kind.visitsSlot slot = true := by
    intro slot hslot
    simpa [Kind.visitsSlot, hkind] using hslot
  refine awaitSteps_congr h.looksLike (h.textIn_eq (by simp [Kind.textSlots, hkind]))
    (h.textIn_eq (by simp [Kind.textSlots, hkind])) (h.nodesIn (hvisits _ (by simp))) ?_
  exact fun slot hslot => hbelow.firstIn (hvisits slot hslot)

variable [DecidableEq ι]

/-- **Trees in which the generator finds the same have the same effect**, whatever their sources. -/
theorem emit_congr {root root' : Node} (h : root.Alike read read' root') (identify : Position → ι)
    (here : Position) : emit read identify root here = emit read' identify root' here := by
  induction root using Node.induction generalizing root' here with
  | step node ih =>
    obtain ⟨-, hfields⟩ := Node.alike_iff.1 h
    -- the nodes below have the same effects wherever they stand
    have hbelow := sameVisits_parts (fun part => emit read identify part.2 part.1)
      (fun part => emit read' identify part.2 part.1) here <|
        ((List.forall₂_and_left _ _).2 ⟨ih, hfields⟩).imp fun field field' hfield =>
          ⟨hfield.2.1, fun hvisits =>
            ((List.forall₂_and_left _ _).2 ⟨hfield.1, hfield.2.2 hvisits⟩).imp
              fun below below' hpair p => hpair.1 hpair.2 p⟩
    funext parent code
    rw [emit_eq, emit_eq]
    unfold emitNode emitContent awaitBlock
    rw [← h.resembles.kind]
    split
    · rename_i hkind
      rw [h.awaitSteps_eq hkind hbelow]
    · rename_i hkind
      rw [h.opening_eq hkind, hbelow.walked hkind]

/-! ## Moving a tree along its source -/

/-- A text that reaches at least as far as the first of two parts begins with that part. -/
theorem exists_append_of_append_eq {text source a b : String} (h : text ++ source = a ++ b)
    (hle : text.utf8ByteSize ≤ a.utf8ByteSize) : ∃ c, a = text ++ c ∧ source = c ++ b := by
  have hchars : text.toList ++ source.toList = a.toList ++ b.toList := by
    rw [← String.toList_append, ← String.toList_append, h]
  rcases List.append_eq_append_iff.1 hchars with ⟨cs, ha, hsource⟩ | ⟨cs, htext, hb⟩
  · exact ⟨String.ofList cs, String.toList_inj.1 (by simpa using ha),
      String.toList_inj.1 (by simpa using hsource)⟩
  · have htext' : text = a ++ String.ofList cs := String.toList_inj.1 (by simpa using htext)
    have hb' : b = String.ofList cs ++ source := String.toList_inj.1 (by simpa using hb)
    -- what is left over has no bytes
    have hempty : String.ofList cs = "" := by
      rw [htext', String.utf8ByteSize_append] at hle
      exact String.utf8ByteSize_eq_zero_iff.1 (by omega)
    rw [hempty, String.append_empty] at htext'
    rw [hempty, String.empty_append] at hb'
    exact ⟨"", by rw [htext', String.append_empty], by rw [hb', String.empty_append]⟩

namespace Span

/-- A range with both ends moved on by a number of bytes. -/
def shift (offset : Nat) (span : Span) : Span :=
  ⟨span.start + offset, span.stop + offset⟩

/-- **A range that is moved along with its source selects the same**, or still nothing. -/
theorem slice_shift (text source : String) (span : Span) :
    (span.shift text.utf8ByteSize).slice (text ++ source) = span.slice source := by
  apply Option.ext
  intro selected
  rw [slice_eq_some_iff, slice_eq_some_iff]
  constructor
  · rintro ⟨a, b, hsource, hstart, hstop⟩
    rw [String.append_assoc] at hsource
    dsimp only [shift] at hstart hstop
    obtain ⟨c, rfl, hc⟩ := exists_append_of_append_eq hsource (by omega)
    rw [String.utf8ByteSize_append] at hstart hstop
    exact ⟨c, b, by rw [hc, String.append_assoc], by omega, by omega⟩
  · rintro ⟨a, b, rfl, hstart, hstop⟩
    refine ⟨text ++ a, b, by simp only [String.append_assoc], ?_, ?_⟩
    · dsimp only [shift]
      rw [String.utf8ByteSize_append, hstart, Nat.add_comm]
    · dsimp only [shift]
      rw [String.utf8ByteSize_append, hstop]
      omega

theorem readIn_shift (text source : String) (span : Span) :
    (span.shift text.utf8ByteSize).readIn (text ++ source) = span.readIn source := by
  unfold readIn readOr
  rw [slice_shift]

end Span

namespace Node

mutual

/-- A tree with `f` done to all its ranges. -/
def mapSpan (f : Span → Span) : Node → Node
  | ⟨kind, span, name, skip, fields⟩ => ⟨kind, f span, name, skip, mapSpanFields f fields⟩

def mapSpanFields (f : Span → Span) : List Field → List Field
  | [] => []
  | .one slot node :: fields => .one slot (mapSpan f node) :: mapSpanFields f fields
  | .many slot nodes :: fields => .many slot (mapSpanNodes f nodes) :: mapSpanFields f fields

def mapSpanNodes (f : Span → Span) : List Node → List Node
  | [] => []
  | node :: nodes => mapSpan f node :: mapSpanNodes f nodes

end

end Node

/-- A field with `f` done to all ranges in its nodes. -/
def Field.mapSpan (f : Span → Span) : Field → Field
  | one slot node => one slot (node.mapSpan f)
  | many slot nodes => many slot (nodes.map (Node.mapSpan f))

theorem Field.mapSpan_slot (f : Span → Span) (field : Field) : (field.mapSpan f).slot = field.slot := by
  cases field <;> rfl

theorem Field.mapSpan_nodes (f : Span → Span) (field : Field) :
    (field.mapSpan f).nodes = field.nodes.map (Node.mapSpan f) := by
  cases field <;> rfl

namespace Node

theorem mapSpanNodes_eq (f : Span → Span) (nodes : List Node) :
    mapSpanNodes f nodes = nodes.map (mapSpan f) := by
  induction nodes with
  | nil => simp [mapSpanNodes]
  | cons node nodes ih => simp [mapSpanNodes, ih]

theorem mapSpan_eq (f : Span → Span) (node : Node) :
    node.mapSpan f =
      { node with span := f node.span, fields := node.fields.map (Field.mapSpan f) } := by
  have hfields : ∀ fields, mapSpanFields f fields = fields.map (Field.mapSpan f) := by
    intro fields
    induction fields with
    | nil => simp [mapSpanFields]
    | cons field fields ih =>
      cases field <;> simp [mapSpanFields, mapSpanNodes_eq, Field.mapSpan, ih]
  cases node
  rw [mapSpan, hfields]

theorem mapSpan_child? (f : Span → Span) (node : Node) (slot : Slot) :
    (node.mapSpan f).child? slot = (node.child? slot).map (mapSpan f) := by
  unfold child? nodesIn field?
  rw [mapSpan_eq]
  dsimp only
  rw [List.find?_map]
  simp only [Function.comp_def, Field.mapSpan_slot]
  cases node.fields.find? fun field => decide (field.slot = slot) with
  | none => rfl
  | some field => simp [Field.mapSpan_nodes]

/-- A tree whose ranges are changed looks the same if the changed ranges read the same. -/
theorem alike_mapSpan {read read' : Reading} {f : Span → Span} (h : ∀ span, read' (f span) = read span)
    (root : Node) : root.Alike read read' (root.mapSpan f) := by
  induction root using Node.induction with
  | step node ih =>
    have htexts : ∀ slot, node.textIn read slot = (node.mapSpan f).textIn read' slot := by
      intro slot
      unfold textIn
      rw [mapSpan_child?]
      cases node.child? slot with
      | none => rfl
      | some part =>
        dsimp only [Option.map_some]
        rw [mapSpan_eq, h]
    have hnode := mapSpan_eq f node
    refine alike_iff.2 ⟨⟨by rw [hnode], by rw [hnode], by rw [hnode], fun slot _ => htexts slot⟩, ?_⟩
    unfold SideBySide
    rw [hnode, List.forall₂_map_right_iff, List.forall₂_same]
    intro field hfield
    refine ⟨(Field.mapSpan_slot f field).symm, fun _ => ?_⟩
    rw [Field.mapSpan_nodes, List.forall₂_map_right_iff, List.forall₂_same]
    exact ih field hfield

end Node

/-- **The code of a tree depends on the texts that are read alone.** Two trees over two sources have the
same code if the generator finds the same kinds, names, marks, slots and texts in them; their ranges,
and what is below their expressions and patterns, may differ. So nothing changes when a text is put in
front of the source and all ranges are moved on by its length, whether they select anything or not. -/
theorem fragment_of_texts :
    (∀ (source source' : String) (root root' : Node) (seed : UInt64),
      root.Alike (Span.readIn source) (Span.readIn source') root' →
        root.fragment source seed = root'.fragment source' seed) ∧
      ∀ (text source : String) (root : Node) (seed : UInt64),
        (root.mapSpan (Span.shift text.utf8ByteSize)).fragment (text ++ source) seed =
          root.fragment source seed := by
  have hcongr : ∀ (source source' : String) (root root' : Node) (seed : UInt64),
      root.Alike (Span.readIn source) (Span.readIn source') root' →
        root.fragment source seed = root'.fragment source' seed := by
    intro source source' root root' seed h
    unfold Node.fragment
    rw [emit_congr h]
  refine ⟨hcongr, fun text source root seed => ?_⟩
  have hread : ∀ span, Span.readIn (text ++ source) (Span.shift text.utf8ByteSize span) =
      Span.readIn source span := fun span => Span.readIn_shift text source span
  exact (hcongr source (text ++ source) root _ seed (root.alike_mapSpan hread)).symm

/-- A loop that reads its item, with given nodes for the iterable, the pattern and the read. -/
def readingLoop (iterable pattern read : Node) : Node :=
  { kind := .eachBlock
    fields := [.one .expression iterable, .one .context pattern,
      .many .children [{ kind := .mustacheTag, fields := [.one .expression read] }]] }

theorem fragment_of_texts_readingLoop :
    (readingLoop { kind := .text, span := ⟨0, 1⟩ } { kind := .text, span := ⟨1, 2⟩ }
        { kind := .text, span := ⟨3, 1⟩ }).fragment "ab" 4 =
      (readingLoop { kind := .binding, span := ⟨4, 5⟩, fields := [.many .children []] }
        { kind := .text, span := ⟨2, 3⟩ } { kind := .spread, span := ⟨1, 2⟩ }).fragment "éb a" 4 := by
  -- the read is an inverted range on the left, and splits a character on the right
  refine fragment_of_texts.1 _ _ _ _ 4 (Node.alike_iff.2 ⟨⟨rfl, rfl, rfl, by decide +kernel⟩,
    .cons ⟨rfl, fun h => absurd h (by decide)⟩ (.cons ⟨rfl, fun h => absurd h (by decide)⟩
      (.cons ⟨rfl, fun _ => .cons ?_ .nil⟩ .nil))⟩)
  exact Node.alike_iff.2 ⟨⟨rfl, rfl, rfl, by decide +kernel⟩,
    .cons ⟨rfl, fun h => absurd h (by decide)⟩ .nil⟩

end TemplateCode
