import TemplateCode.Proofs.Heights

/-!
# Siblings

What a tree writes depends on what is there before it only through the open blocks and the counter, and
no tree leaves the stack higher than it was. So siblings that begin without open blocks are written one
after the other as if each stood alone.

* `Node.level_effect_le`: no tree leaves the stack higher than it was.
* `Unnoticed.effect`: what operations do not notice, trees do not notice.
* `Node.effect_congr_parent`: what a node asks of its parent.
* `Node.effect_transparent`: a node of a kind that does nothing of its own.
* `fragment_append`: the code of siblings, one part after the other.
-/

namespace TemplateCode

/-! ## What is there before -/

/-- Code without open blocks can be put below other code without being noticed. -/
theorem unnoticed_within {ι : Type} [DecidableEq ι] {base : Code ι} (h : base.level = 0) :
    Unnoticed id fun code : Code ι => code.within base where
  level code := by rw [Code.level_within, h, Nat.add_zero]
  counter _ := rfl
  apply edit code hedit := by
    cases edit with
    | append text => exact Code.write_within .plain text code base
    | declare initializer => exact Code.declare_within initializer code base
    | openBlock header owner =>
      rw [Edit.rename, Option.map_id]
      exact Code.openWith_within .opener header owner code base
    | openScope params owner =>
      rw [Edit.rename, Option.map_id]
      exact Code.openWith_within .scope _ owner code.count base
    | close owner =>
      cases owner with
      | none =>
        by_cases hframes : code.frames = []
        · -- there is nothing to close, neither above nor below
          have hbase : base.frames = [] := List.length_eq_zero_iff.1 h
          simp [Edit.rename, Code.apply, Code.closeInnermost, Code.within, hframes, hbase]
        · exact Code.closeInnermost_within hframes base
      | some owner => exact (hedit owner rfl).elim
    | splice fragment => exact Code.splice_within fragment code base

theorem Code.fragment_within {ι : Type} {base : Code ι} (h : base.level = 0) (code : Code ι) :
    (code.within base).fragment = ⟨base.lines ++ code.lines, code.counter⟩ := by
  have hnest : Line.nest 0 = id := funext Line.nest_zero
  simp [fragment, lines, within, h, hnest]

namespace Node

/-- **No tree leaves the stack higher than it was.** -/
theorem level_effect_le (read : Reading) (node : Node) (parent : Option (Parent Nat))
    (code : Code Unit) : (node.effect read parent code).level ≤ code.level := by
  by_cases h : node.kind = .awaitBlock
  · rw [effect_await read h []]
    unfold Code.level
    rw [awaitBlock_frames]
  · rw [effect_walk read h, Code.level_closeTo]
    exact (Nat.min_le_right _ _).trans (Nat.sub_le _ _)

theorem level_foldl_effect_le (read : Reading) (parent : Option (Parent Nat)) (nodes : List Node)
    (code : Code Unit) :
    (nodes.foldl (fun code' below => below.effect read parent code') code).level ≤ code.level :=
  List.foldlRecOn (motive := fun code' : Code Unit => code'.level ≤ code.level) _ _ le_rfl
    fun _ hcode below _ => (level_effect_le read below parent _).trans hcode

end Node

theorem Edit.rename_id {ι : Type} (edit : Edit ι) : edit.rename id = edit := by
  cases edit <;> simp [rename]

theorem foldl_carry {α β : Type} (step : β → α → β) (carry : β → β) {items : List α}
    (h : ∀ item ∈ items, ∀ state, step (carry state) item = carry (step state item)) (state : β) :
    items.foldl step (carry state) = carry (items.foldl step state) := by
  induction items generalizing state with
  | nil => rfl
  | cons item items ih =>
    obtain ⟨hitem, hitems⟩ := List.forall_mem_cons.1 h
    rw [List.foldl_cons, List.foldl_cons, hitem, ih hitems]

/-- **What operations do not notice, trees do not notice.** -/
theorem Unnoticed.effect {carry : Code Unit → Code Unit} (h : Unnoticed id carry) (read : Reading)
    (root : Node) (parent : Option (Parent Nat)) (code : Code Unit) :
    root.effect read parent (carry code) = carry (root.effect read parent code) := by
  induction root using Node.induction generalizing parent code with
  | step node ih =>
    by_cases hkind : node.kind = .awaitBlock
    · rw [Node.effect_await read hkind [], Node.effect_await read hkind []]
      exact h.awaitBlock read node (fun _ _ _ => rfl) code
    · have hchain : continuesChain parent (carry code) = continuesChain parent code := by
        unfold continuesChain
        rw [h.level]
      have hentering : node.entering read parent (carry code) = node.entering read parent code := by
        unfold Node.entering
        rw [hchain]
      have hkept : node.kept read parent (carry code) = node.kept read parent code := by
        unfold Node.kept
        rw [h.level, hentering]
      have hentered : (carry code).applyAll (node.entering read parent code) =
          carry (code.applyAll (node.entering read parent code)) := by
        have hedits : ∀ edit ∈ node.entering read parent code, ∀ owner, edit ≠ .close (some owner) :=
          fun _ => close_some_not_mem_opening
        have happly := h.applyAll hedits code
        rwa [funext Edit.rename_id, List.map_id'] at happly
      rw [Node.effect_walk read hkind, Node.effect_walk read hkind, hentering, hkept, hentered,
        foldl_carry, h.closeTo]
      intro below hbelow code'
      obtain ⟨field, hfield, hmem⟩ := Node.exists_field_of_mem_content hbelow
      exact ih field hfield below hmem _ code'

/-! ## What a node asks of its parent -/

/-- A node begins in the same way under two parents, if an alternative is told the same of its parent,
and a condition is told the same of its chain. -/
theorem opening_congr_parent {ι : Type} (read : Reading) {node : Node} (owner : ι)
    {parent parent' : Option Kind} {chained chained' : Bool}
    (helse : node.kind = .elseBlock → (parent = some .ifBlock ↔ parent' = some .ifBlock) ∧
      (parent = some .eachBlock ↔ parent' = some .eachBlock))
    (hif : node.kind = .ifBlock → chained = chained') :
    opening read node owner parent chained = opening read node owner parent' chained' := by
  unfold opening
  cases hkind : node.kind with
  | ifBlock => rw [hif hkind]
  | elseBlock =>
    obtain ⟨hparentIf, hparentEach⟩ := helse hkind
    simp only [elseBlock, hparentIf, hparentEach]
  | _ => rfl

theorem continuesChain_eq_false {parent : Option (Parent Nat)} {code : Code Unit}
    (h : parent.map Parent.kind ≠ some .elseBlock) : continuesChain parent code = false := by
  cases parent with
  | none => rfl
  | some parent => simpa [continuesChain] using fun hkind => absurd (congrArg some hkind) h

namespace Node

theorem effect_congr_parent (read : Reading) {node : Node} {parent parent' : Option (Parent Nat)}
    {code : Code Unit}
    (helse : node.kind = .elseBlock →
      (parent.map Parent.kind = some .ifBlock ↔ parent'.map Parent.kind = some .ifBlock) ∧
      (parent.map Parent.kind = some .eachBlock ↔ parent'.map Parent.kind = some .eachBlock))
    (hif : node.kind = .ifBlock → continuesChain parent code = continuesChain parent' code) :
    node.effect read parent code = node.effect read parent' code := by
  by_cases hkind : node.kind = .awaitBlock
  · rw [effect_await read hkind [], effect_await read hkind []]
  · have hentering : node.entering read parent code = node.entering read parent' code :=
      opening_congr_parent read () helse hif
    have hkept : node.kept read parent code = node.kept read parent' code := by
      unfold kept
      rw [hentering]
    rw [effect_walk read hkind, effect_walk read hkind, hentering, hkept]

end Node

/-! ## Kinds that do nothing of their own -/

/-- Whether nothing is written and no block opened for nodes of a kind. -/
def Kind.isTransparent : Kind → Bool
  | .fragment | .plainAttribute | .letDirective | .text | .pendingBlock | .thenBlock | .catchBlock
  | .other _ => true
  | _ => false

theorem Kind.ne_of_isTransparent {kind other : Kind} (h : kind.isTransparent = true)
    (hother : other.isTransparent = false) : kind ≠ other := by
  rintro rfl
  rw [hother] at h
  cases h

theorem opening_transparent {ι : Type} (read : Reading) {node : Node}
    (h : node.kind.isTransparent = true) (owner : ι) (parent : Option Kind) (chained : Bool) :
    opening read node owner parent chained = [] := by
  unfold opening
  cases hkind : node.kind <;> first | rfl | (rw [hkind] at h; cases h)

namespace Node

/-- **A node of a kind that does nothing of its own** has the effect of its content. -/
theorem effect_transparent (read : Reading) {node : Node} (h : node.kind.isTransparent = true)
    (parent : Option (Parent Nat)) (code : Code Unit) :
    node.effect read parent code =
      node.content.foldl
        (fun code' below => below.effect read (some ⟨node.kind, code.level⟩) code') code := by
  have hkind : node.kind ≠ .awaitBlock := Kind.ne_of_isTransparent h rfl
  have hentering : node.entering read parent code = [] := opening_transparent read h () _ _
  have hkept : node.kept read parent code = code.level := by
    unfold kept
    rw [hentering]
    rfl
  rw [effect_walk read hkind, hentering, hkept, Code.applyAll_nil]
  exact Code.closeTo_of_level_le (level_foldl_effect_le read _ _ code)

/-- Its content need not know that it is there, if the parent is no alternative, and if alternatives
in the content are told nothing else by the parent. -/
theorem effect_transparent_under (read : Reading) {node : Node} (h : node.kind.isTransparent = true)
    {parent : Option (Parent Nat)} (hparent : parent.map Parent.kind ≠ some .elseBlock)
    (hcontent : ∀ below ∈ node.content, below.kind = .elseBlock →
      parent.map Parent.kind ≠ some .ifBlock ∧ parent.map Parent.kind ≠ some .eachBlock)
    (code : Code Unit) :
    node.effect read parent code =
      node.content.foldl (fun code' below => below.effect read parent code') code := by
  rw [effect_transparent read h]
  refine List.foldl_ext _ _ code fun code' below hbelow => effect_congr_parent read ?_ ?_
  · intro helse
    obtain ⟨hif, heach⟩ := hcontent below hbelow helse
    have hkindIf : node.kind ≠ .ifBlock := Kind.ne_of_isTransparent h rfl
    have hkindEach : node.kind ≠ .eachBlock := Kind.ne_of_isTransparent h rfl
    simp [hif, heach, hkindIf, hkindEach]
  · intro _
    have hkind : node.kind ≠ .elseBlock := Kind.ne_of_isTransparent h rfl
    rw [continuesChain_eq_false hparent, continuesChain_eq_false (by simpa using hkind)]

/-- A node that holds a sequence of nodes and nothing else. -/
def group (shell : Node) (nodes : List Node) : Node :=
  { shell with kind := .fragment, fields := [.many .children nodes] }

/-- A group has the effect of its members, which need not know that they are in a group. -/
theorem effect_group (read : Reading) (shell : Node) (nodes : List Node) (code : Code Unit) :
    (shell.group nodes).effect read none code =
      nodes.foldl (fun code' below => below.effect read none code') code := by
  have hcontent : (shell.group nodes).content = nodes := by
    simp [group, content, Field.slot, Slot.isFragment, Field.nodes]
  rw [effect_transparent_under read rfl (by simp) (by simp), hcontent]

end Node

/-! ## Siblings -/

/-- **The code of siblings is the code of the first of them followed by the code of the others**, in
which names are counted on. All of them may be any trees. -/
theorem fragment_append (source : String) (shell shell' shell'' : Node) (nodes more : List Node)
    (seed : UInt64) :
    (shell.group (nodes ++ more)).fragment source seed =
      { lines := ((shell'.group nodes).fragment source seed).lines ++
          ((shell''.group more).fragment source ((shell'.group nodes).fragment source seed).next).lines
        next := ((shell''.group more).fragment source
          ((shell'.group nodes).fragment source seed).next).next } := by
  simp only [fragment_eq_effect, Node.effect_group, List.foldl_append]
  have hlevel := Node.level_foldl_effect_le (Span.readIn source) none nodes (Code.start seed)
  generalize nodes.foldl (fun code below => below.effect (Span.readIn source) none code)
    (Code.start seed) = first at hlevel ⊢
  -- the first of them leave no block open, so that the others begin as in a run of their own
  have hfirst : first.level = 0 := Nat.le_zero.1 hlevel
  have hrest : more.foldl (fun code below => below.effect (Span.readIn source) none code) first =
      (more.foldl (fun code below => below.effect (Span.readIn source) none code)
        (Code.start first.counter)).within first := by
    have hcarry : ∀ below ∈ more, ∀ code : Code Unit,
        below.effect (Span.readIn source) none (code.within first) =
          (below.effect (Span.readIn source) none code).within first :=
      fun below _ code => (unnoticed_within hfirst).effect _ below none code
    have hrun := foldl_carry (fun code (below : Node) => below.effect (Span.readIn source) none code)
      (Code.within · first) hcarry (Code.start first.counter)
    rwa [Code.start_within] at hrun
  rw [hrest, Code.fragment_within hfirst]
  rfl

end TemplateCode
