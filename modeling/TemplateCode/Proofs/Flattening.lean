import TemplateCode.Proofs.Locality
import TemplateCode.Proofs.Siblings

/-!
# Flattening

A child of a kind that does nothing of its own can be replaced by its content. What other nodes look at
does not change by that: their texts and attributes are in other slots, only alternatives look at their
children, and only conditions and alternatives look at their parent.

* `Flattens`: one tree is another in which one such child is replaced, at any depth.
* `Flattens.looks`: what nodes on the way to the child show to others stays the same.
* `Flattens.effect_eq`: the effect stays the same.
* `fragment_flattens`: so does the code.
-/

namespace TemplateCode

open Node (LooksLike SideBySide)

/-- A node with the given fields in place of its own. -/
def Node.around (node : Node) (before : List Field) (field : Field) (after : List Field) : Node :=
  { node with fields := before ++ field :: after }

/-- In a tree, one child of a kind that does nothing of its own is replaced by its content. Its parent
is neither an alternative nor an await block, and there is no alternative in its content. -/
inductive Flattens : Node → Node → Prop
  | child (node : Node) (before after : List Field) (left right : List Node) {child : Node}
      (helse : node.kind ≠ .elseBlock) (hawait : node.kind ≠ .awaitBlock)
      (htransparent : child.kind.isTransparent = true)
      (hcontent : ∀ below ∈ child.content, below.kind ≠ .elseBlock) :
      Flattens (node.around before (.many .children (left ++ child :: right)) after)
        (node.around before (.many .children (left ++ child.content ++ right)) after)
  | inOne (node : Node) (before after : List Field) (slot : Slot) {inner inner' : Node}
      (h : Flattens inner inner') :
      Flattens (node.around before (.one slot inner) after)
        (node.around before (.one slot inner') after)
  | inMany (node : Node) (before after : List Field) (slot : Slot) (left right : List Node)
      {inner inner' : Node} (h : Flattens inner inner') :
      Flattens (node.around before (.many slot (left ++ inner :: right)) after)
        (node.around before (.many slot (left ++ inner' :: right)) after)

/-! ## What nodes show -/

/-- Two nodes that read the same and look the same to the nodes that hold them. -/
structure ShowsSame (read : Reading) (node node' : Node) : Prop
    extends LooksLike read read node node' where
  span : node.span = node'.span

theorem ShowsSame.refl (read : Reading) (node : Node) : ShowsSame read node node :=
  ⟨⟨rfl, rfl, rfl, rfl⟩, rfl⟩

/-- Whether the nodes in a slot may be looked at when a node of a kind is entered. -/
def Kind.looksInto (kind : Kind) (slot : Slot) : Bool :=
  slot ≠ .children || kind = .elseBlock

namespace Node

variable {read : Reading} {sees : Slot → Bool}

theorem SideBySide.textIn {node node' : Node} (h : SideBySide sees (ShowsSame read) node node')
    {slot : Slot} (hslot : sees slot = true) : node.textIn read slot = node'.textIn read slot := by
  unfold Node.textIn child?
  have hnodes := h.nodesIn hslot
  generalize node.nodesIn slot = nodes, node'.nodesIn slot = nodes' at hnodes
  rcases hnodes with _ | ⟨hpart, _⟩
  · rfl
  · dsimp only [List.head?_cons]
    rw [hpart.span]

theorem forall₂_showsSame_refl (nodes : List Node) : List.Forall₂ (ShowsSame read) nodes nodes :=
  List.forall₂_same.2 fun node _ => ShowsSame.refl read node

/-- Nodes that differ in one field are the same side by side if that field is. -/
theorem sideBySide_around (node : Node) (before after : List Field) {field field' : Field}
    (hslot : field.slot = field'.slot)
    (hnodes : sees field.slot = true → List.Forall₂ (ShowsSame read) field.nodes field'.nodes) :
    SideBySide sees (ShowsSame read) (node.around before field after)
      (node.around before field' after) := by
  have hrefl : ∀ fields : List Field, List.Forall₂
      (fun field field' => field.slot = field'.slot ∧
        (sees field.slot = true → List.Forall₂ (ShowsSame read) field.nodes field'.nodes))
      fields fields :=
    fun fields => List.forall₂_same.2 fun field _ => ⟨rfl, fun _ => forall₂_showsSame_refl field.nodes⟩
  exact List.rel_append (hrefl before) (.cons ⟨hslot, hnodes⟩ (hrefl after))

end Node

namespace Flattens

variable {root root' : Node}

/-- **What nodes show stays the same**: to the nodes that hold them, and to themselves. -/
theorem looks (h : Flattens root root') (read : Reading) :
    ShowsSame read root root' ∧ SideBySide root.kind.looksInto (ShowsSame read) root root' := by
  have hshows : ∀ (node : Node) (before after : List Field) {field field' : Field},
      field.slot = field'.slot →
      (node.kind.looksInto field.slot = true →
        List.Forall₂ (ShowsSame read) field.nodes field'.nodes) →
      ShowsSame read (node.around before field after) (node.around before field' after) ∧
        SideBySide node.kind.looksInto (ShowsSame read) (node.around before field after)
          (node.around before field' after) := by
    intro node before after field field' hslot hnodes
    have hparts := node.sideBySide_around before after hslot hnodes
    -- the expression is one of the parts
    exact ⟨⟨⟨rfl, rfl, rfl, hparts.textIn rfl⟩, rfl⟩, hparts⟩
  induction h with
  | child node before after left right helse hawait htransparent hcontent =>
    refine hshows node before after rfl fun hsees => ?_
    simp [Kind.looksInto, Field.slot, helse] at hsees
  | inOne node before after slot h ih =>
    exact hshows node before after rfl fun _ => .cons ih.1 .nil
  | inMany node before after slot left right h ih =>
    refine hshows node before after rfl fun _ => ?_
    exact List.rel_append (Node.forall₂_showsSame_refl left)
      (.cons ih.1 (Node.forall₂_showsSame_refl right))

/-- The nodes in a slot other than the children look the same. -/
theorem nodesIn (h : Flattens root root') (read : Reading) {slot : Slot}
    (hslot : root.kind.looksInto slot = true) :
    List.Forall₂ (LooksLike read read) (root.nodesIn slot) (root'.nodesIn slot) :=
  ((h.looks read).2.nodesIn hslot).imp fun _ _ hshows => hshows.toLooksLike

theorem entering_eq (h : Flattens root root') (read : Reading) (parent : Option (Parent Nat))
    (code : Code Unit) : root.entering read parent code = root'.entering read parent code := by
  obtain ⟨hroot, hparts⟩ := h.looks read
  refine opening_congr hroot.toLooksLike (hparts.textIn rfl) (h.nodesIn read rfl) (h.nodesIn read rfl)
    (fun hkind => h.nodesIn read ?_) (hparts.isSome_field? _) () _ _
  simp [Kind.looksInto, hkind]

theorem kept_eq (h : Flattens root root') (read : Reading) (parent : Option (Parent Nat))
    (code : Code Unit) : root.kept read parent code = root'.kept read parent code := by
  unfold Node.kept
  rw [h.entering_eq]

/-- Nodes on the way to the child do the same, if the same is done by what they hold. -/
theorem effectNode_eq (h : Flattens root root') (read : Reading) (below : List (Slot × List Effect)) :
    effectNode read root below = effectNode read root' below := by
  obtain ⟨hroot, hparts⟩ := h.looks read
  funext parent code
  unfold effectNode awaitBlock
  rw [← hroot.kind, h.entering_eq, h.kept_eq, awaitSteps_congr hroot.toLooksLike (hparts.textIn rfl)
    (hparts.textIn rfl) (h.nodesIn read rfl) fun _ _ => rfl]

/-! ## What nodes do -/

/-- The children are a stretch of the content. -/
theorem exists_content_around (node : Node) (before after : List Field) :
    ∃ first rest, ∀ nodes,
      (node.around before (.many .children nodes) after).content = first ++ nodes ++ rest := by
  refine ⟨{ node with fields := before }.content, { node with fields := after }.content, ?_⟩
  intro nodes
  simp [Node.content, Node.around, Field.slot, Slot.isFragment, Field.nodes]

/-- **The effect stays the same.** -/
theorem effect_eq (h : Flattens root root') (read : Reading) : root.effect read = root'.effect read := by
  induction h with
  | @child node before after left right child helse hawait htransparent hcontent =>
    have hflattens := Flattens.child node before after left right helse hawait htransparent hcontent
    have hkind : ∀ nodes, (node.around before (.many .children nodes) after).kind ≠ .awaitBlock :=
      fun _ => hawait
    obtain ⟨first, rest, hstretch⟩ := exists_content_around node before after
    funext parent code
    rw [Node.effect_walk read (hkind _), Node.effect_walk read (hkind _), hflattens.entering_eq,
      hflattens.kept_eq, hstretch, hstretch]
    simp only [List.foldl_append, List.foldl_cons]
    -- the content meets the parent of the child instead of the child
    rw [Node.effect_transparent_under read htransparent]
    · rfl
    · simpa [Node.around] using helse
    · exact fun below hbelow halternative => absurd halternative (hcontent below hbelow)
  | inOne node before after slot h ih =>
    rw [Node.effect_eq, Node.effect_eq, (inOne node before after slot h).effectNode_eq]
    simp [Node.around, Field.nodes, Field.slot, ih]
  | inMany node before after slot left right h ih =>
    rw [Node.effect_eq, Node.effect_eq, (inMany node before after slot left right h).effectNode_eq]
    simp [Node.around, Field.nodes, Field.slot, ih]

end Flattens

/-- **The code of a tree stays the same when a child of a kind that does nothing of its own is replaced
by its content**, at any depth. So does the number from which names are counted on. -/
theorem fragment_flattens {root root' : Node} (h : Flattens root root') (source : String)
    (seed : UInt64) : root.fragment source seed = root'.fragment source seed := by
  rw [fragment_eq_effect, fragment_eq_effect, h.effect_eq]

/-- A loop with given children and a branch for the empty case, which is all that a branch of an await
block holds. -/
def awaitedLoop (nodes : List Node) : Node :=
  { kind := .awaitBlock
    fields := [.one .expression { kind := .text, span := ⟨0, 1⟩ },
      .one .thenBranch
        { kind := .thenBlock
          fields := [.many .children
            [{ kind := .eachBlock
               fields := [.one .expression { kind := .text, span := ⟨1, 2⟩ }, .many .children nodes,
                 .one .elseBranch { kind := .elseBlock }] }]] }] }

/-- A node without a meaning of its own that holds a binding and a condition. -/
def bareWindow : Node :=
  { kind := .other "Window"
    fields := [.one .expression { kind := .binding },
      .many .attributes
        [{ kind := .binding, fields := [.one .expression { kind := .text, span := ⟨2, 3⟩ }] }],
      .many .children [{ kind := .ifBlock, fields := [.one .elseBranch { kind := .elseBlock }] }]] }

theorem fragment_flattens_bareWindow :
    Flattens (awaitedLoop [{ kind := .keyBlock }, bareWindow, { kind := .mustacheTag }])
        (awaitedLoop ([{ kind := .keyBlock }] ++ bareWindow.content ++ [{ kind := .mustacheTag }])) ∧
      (awaitedLoop [{ kind := .keyBlock }, bareWindow, { kind := .mustacheTag }]).fragment "abc" 7 =
        (awaitedLoop ([{ kind := .keyBlock }] ++ bareWindow.content ++
          [{ kind := .mustacheTag }])).fragment "abc" 7 := by
  have hflattens :
      Flattens (awaitedLoop [{ kind := .keyBlock }, bareWindow, { kind := .mustacheTag }])
        (awaitedLoop ([{ kind := .keyBlock }] ++ bareWindow.content ++ [{ kind := .mustacheTag }])) :=
    .inOne { kind := .awaitBlock } [_] [] .thenBranch
      (.inMany { kind := .thenBlock } [] [] .children [] []
        (.child { kind := .eachBlock } [_] [_] [_] [_] (by decide) (by decide) rfl (by decide)))
  exact ⟨hflattens, fragment_flattens hflattens "abc" 7⟩

end TemplateCode
