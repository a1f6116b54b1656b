import TemplateCode.Proofs.Fitting
import TemplateCode.Proofs.Parts

/-!
# The nodes whose text is read

Of most nodes of a tree the text is never looked at. Those of which it is are listed here: the code of a
tree depends on a source through their texts alone, and they are among the nodes that are validated.

* `Node.consults`: the nodes whose text a node asks for, `Node.consulted`: those of a whole tree, the
  branches of await blocks included.
* `emit_congr_reading`: readings that agree on these nodes give the same code.
* `Node.mem_preorder_of_mem_consulted`: all of them are nodes of the tree, so they fit if the tree does.
-/

namespace TemplateCode

namespace Node

/-- The patterns of the directives of a node that bind names. -/
def patterns (node : Node) : List Node :=
  node.letDirectives.flatMap fun directive => (directive.child? .expression).toList

/-- The branch for a failure, unless the template leaves it out. -/
def handler? (node : Node) : Option Node :=
  (node.child? .catchBranch).filter fun branch => !branch.skip

/-- The nodes whose text a node asks for when its own statements are written. -/
def consults (node : Node) : List Node :=
  match node.kind with
  | .inlineComponent =>
    (if node.label = "svelte:component" then (node.child? .expression).toList else []) ++ node.patterns
  | .element => if node.isSlotted then node.patterns else []
  | .slotTemplate => node.patterns
  | .eachBlock => (node.child? .expression).toList ++ (node.child? .context).toList
  | .awaitBlock =>
    (node.child? .value).toList ++ (node.child? .expression).toList ++
      if node.handler?.isSome then (node.child? .error).toList else []
  | .ifBlock | .keyBlock | .mustacheTag | .rawMustacheTag | .attributeShorthand | .binding
  | .eventHandler | .spread | .classDirective | .action | .transition | .animation =>
    (node.child? .expression).toList
  | _ => []

/-- The nodes whose text is asked for when the code of a tree is generated, in the runs for branches of
await blocks too. -/
def consulted (root : Node) : List Node :=
  root.fold fun node below => node.consults ++ (visits node below).flatMap Prod.snd

theorem mem_consulted (here : Position) {root part : Node} :
    part ∈ root.consulted ↔
      part ∈ root.consults ∨
        ∃ visit ∈ visits root (root.parts here), part ∈ visit.2.2.consulted := by
  unfold consulted
  rw [fold_eq, root.map_fields here, visits_mapBelow, List.mem_append, List.flatMap_map,
    List.mem_flatMap]

/-! ## Consulted nodes are nodes of the tree -/

theorem mem_preorder_self (root : Node) : root ∈ root.preorder :=
  mem_preorder.2 (Or.inl rfl)

theorem exists_field_of_mem_nodesIn {node below : Node} {slot : Slot} (h : below ∈ node.nodesIn slot) :
    ∃ field ∈ node.fields, below ∈ field.nodes := by
  unfold nodesIn at h
  split at h
  · rename_i field hfield
    exact ⟨field, List.mem_of_find?_eq_some hfield, h⟩
  · cases h

theorem mem_preorder_of_mem_nodesIn {root node below : Node} {slot : Slot}
    (hbelow : below ∈ root.nodesIn slot) (h : node ∈ below.preorder) : node ∈ root.preorder := by
  obtain ⟨field, hfield, hmem⟩ := exists_field_of_mem_nodesIn hbelow
  exact mem_preorder.2 (Or.inr ⟨field, hfield, below, hmem, h⟩)

theorem mem_preorder_of_child? {root part : Node} {slot : Slot} (h : root.child? slot = some part) :
    part ∈ root.preorder :=
  mem_preorder_of_mem_nodesIn (List.mem_of_head? h) part.mem_preorder_self

/-- A node asks for the first node of one of its slots, or of a slot of one of its directives. -/
theorem mem_consults {node part : Node} (h : part ∈ node.consults) :
    (∃ slot, node.child? slot = some part) ∨
      ∃ directive ∈ node.letDirectives, directive.child? .expression = some part := by
  have hchild : ∀ slot, part ∈ (node.child? slot).toList → ∃ slot, node.child? slot = some part :=
    fun slot hpart => ⟨slot, Option.mem_toList.1 hpart⟩
  have hpattern : part ∈ node.patterns →
      ∃ directive ∈ node.letDirectives, directive.child? .expression = some part := by
    intro hmem
    obtain ⟨directive, hdirective, hpart⟩ := List.mem_flatMap.1 hmem
    exact ⟨directive, hdirective, Option.mem_toList.1 hpart⟩
  revert h
  unfold consults
  cases node.kind with
  | inlineComponent =>
    intro h
    rcases List.mem_append.1 h with hexpression | hmem
    · split at hexpression
      · exact Or.inl (hchild _ hexpression)
      · cases hexpression
    · exact Or.inr (hpattern hmem)
  | element =>
    intro h
    dsimp only at h
    split at h
    · exact Or.inr (hpattern h)
    · cases h
  | slotTemplate => exact fun h => Or.inr (hpattern h)
  | eachBlock => exact fun h => Or.inl ((List.mem_append.1 h).elim (hchild _) (hchild _))
  | awaitBlock =>
    intro h
    rcases List.mem_append.1 h with hawaited | herror
    · exact Or.inl ((List.mem_append.1 hawaited).elim (hchild _) (hchild _))
    · split at herror
      · exact Or.inl (hchild _ herror)
      · cases herror
  | ifBlock | keyBlock | mustacheTag | rawMustacheTag | attributeShorthand | binding | eventHandler
  | spread | classDirective | action | transition | animation => exact fun h => Or.inl (hchild _ h)
  | _ => exact nofun

/-- **Every node whose text is read is a node of the tree.** -/
theorem mem_preorder_of_mem_consulted {root part : Node} (h : part ∈ root.consulted) :
    part ∈ root.preorder := by
  induction root using Node.induction with
  | step root ih =>
    rcases (mem_consulted []).1 h with hown | ⟨visit, hvisit, hpart⟩
    · rcases mem_consults hown with ⟨slot, hchild⟩ | ⟨directive, hdirective, hchild⟩
      · exact mem_preorder_of_child? hchild
      · exact mem_preorder_of_mem_nodesIn (List.mem_filter.1 hdirective).1
          (mem_preorder_of_child? hchild)
    · obtain ⟨-, field, hfield, hbelow⟩ := mem_held (snd_mem_of_mem_visits hvisit)
      exact mem_preorder.2 (Or.inr ⟨field, hfield, _, hbelow, ih field hfield _ hbelow hpart⟩)

/-- **On a tree that fits, every text that is read is there.** -/
theorem fits_of_mem_consulted {root part : Node} {source : String}
    (hvalid : root.validate source = .ok ()) (h : part ∈ root.consulted) : part.span.Fits source := by
  obtain ⟨address, hpart⟩ := mem_preorder_iff_at?.1 (mem_preorder_of_mem_consulted h)
  exact validate_eq_ok_iff.1 hvalid address part hpart

/-! ## Readings that agree -/

/-- Two readings that give the same text for each of some nodes. -/
def SameTexts (read read' : Reading) (nodes : List Node) : Prop :=
  ∀ part ∈ nodes, read part.span = read' part.span

variable {read read' : Reading} {node : Node}

theorem SameTexts.left {first second : List Node} (h : SameTexts read read' (first ++ second)) :
    SameTexts read read' first :=
  fun part hpart => h part (List.mem_append_left _ hpart)

theorem SameTexts.right {first second : List Node} (h : SameTexts read read' (first ++ second)) :
    SameTexts read read' second :=
  fun part hpart => h part (List.mem_append_right _ hpart)

theorem SameTexts.textIn {slot : Slot} (h : SameTexts read read' (node.child? slot).toList) :
    node.textIn read slot = node.textIn read' slot := by
  unfold Node.textIn
  split
  · rename_i part hpart
    exact h part (Option.mem_toList.2 hpart)
  · rfl

theorem SameTexts.boundNames (h : SameTexts read read' node.patterns) :
    node.boundNames read = node.boundNames read' := by
  refine List.map_congr_left fun directive hdirective => ?_
  have htext : directive.expression read = directive.expression read' :=
    SameTexts.textIn fun part hpart => h part (List.mem_flatMap.2 ⟨directive, hdirective, hpart⟩)
  rw [htext]

end Node

open Node (SameTexts)

section

variable {ι : Type} {read read' : Reading} {node : Node}

theorem bindingScope_congr (h : SameTexts read read' node.patterns) (owner : ι) :
    bindingScope read node owner = bindingScope read' node owner := by
  unfold bindingScope
  rw [h.boundNames]

/-- The operations with which a node begins depend on the texts that it asks for. -/
theorem opening_congr_consults (h : SameTexts read read' node.consults) (owner : ι)
    (parent : Option Kind) (chained : Bool) :
    opening read node owner parent chained = opening read' node owner parent chained := by
  have hexpression : SameTexts read read' (node.child? .expression).toList →
      node.expression read = node.expression read' := SameTexts.textIn
  revert h
  unfold opening Node.consults
  cases node.kind with
  | inlineComponent =>
    intro h
    have hcomponent : node.component read = node.component read' := by
      unfold Node.component
      split
      · rename_i hlabel
        have hleft := h.left
        rw [if_pos hlabel] at hleft
        exact hexpression hleft
      · rfl
    dsimp only
    rw [hcomponent, bindingScope_congr h.right]
  | element =>
    intro h
    dsimp only at h ⊢
    split
    · rename_i hslotted
      rw [if_pos hslotted] at h
      exact bindingScope_congr h owner
    · rfl
  | slotTemplate =>
    intro h
    exact bindingScope_congr h owner
  | ifBlock =>
    intro h
    dsimp only [ifBlock]
    rw [hexpression h]
  | eachBlock =>
    intro h
    have hcontext : node.textIn read .context = node.textIn read' .context := h.right.textIn
    dsimp only [eachBlock]
    rw [hexpression h.left, hcontext]
  | classDirective =>
    intro h
    dsimp only [Node.classCondition]
    rw [hexpression h]
  | keyBlock | mustacheTag | rawMustacheTag | attributeShorthand | binding | eventHandler | spread
  | action | transition | animation =>
    intro h
    dsimp only
    rw [hexpression h]
  | _ => exact fun _ => rfl

/-- The steps of an await block depend on the texts that it asks for. -/
theorem awaitSteps_congr_consults {α : Type} (hkind : node.kind = .awaitBlock)
    (h : SameTexts read read' node.consults) (below : List (Slot × List α)) :
    awaitSteps (ι := ι) read node below = awaitSteps read' node below := by
  unfold Node.consults at h
  rw [hkind] at h
  dsimp only at h
  have hstatement : awaitStatement read node = awaitStatement read' node := by
    have hvalue : node.textIn read .value = node.textIn read' .value := h.left.left.textIn
    have hexpression : node.expression read = node.expression read' := h.left.right.textIn
    unfold awaitStatement
    rw [hvalue, hexpression]
  unfold awaitSteps
  rw [hstatement]
  cases hbranch : catchBranch node below with
  | none => rfl
  | some branch =>
    -- the error is asked for only where the failure is handled
    have hhandler : node.handler?.isSome = true := by
      unfold catchBranch at hbranch
      unfold Node.handler?
      split at hbranch
      · rename_i handler hhandler
        split at hbranch
        · cases hbranch
        · rename_i hskip
          simp [hhandler, Option.filter, hskip]
      · cases hbranch
    have herror := h.right
    rw [if_pos hhandler] at herror
    have hheader : catchHeader read node = catchHeader read' node := by
      unfold catchHeader
      rw [show node.textIn read .error = node.textIn read' .error from herror.textIn]
    dsimp only
    rw [hheader]

end

section

variable {ι : Type} [DecidableEq ι] {read read' : Reading}

/-- **The code of a tree depends on the texts of the consulted nodes alone.** -/
theorem emit_congr_reading {root : Node} (h : SameTexts read read' root.consulted)
    (identify : Position → ι) (here : Position) :
    emit read identify root here = emit read' identify root here := by
  induction here, root using Node.located_induction with
  | step here node ih =>
    have hown : SameTexts read read' node.consults := fun part hpart =>
      h part ((Node.mem_consulted here).2 (Or.inl hpart))
    -- what is visited below has the same effect
    have hvisits : ∀ visit ∈ visits node (node.parts here),
        emit read identify visit.2.2 visit.2.1 = emit read' identify visit.2.2 visit.2.1 := by
      intro visit hvisit
      refine ih visit.2 (snd_mem_of_mem_visits hvisit) fun part hpart => ?_
      exact h part ((Node.mem_consulted here).2 (Or.inr ⟨visit, hvisit, hpart⟩))
    funext parent code
    by_cases hkind : node.kind = .awaitBlock
    · rw [visits_await hkind] at hvisits
      rw [emit_await read identify here hkind, emit_await read' identify here hkind,
        awaitBlock_mapBelow, awaitBlock_mapBelow, awaitSteps_congr_consults hkind hown]
      refine congrArg (Code.closeOwned _) (List.foldl_ext _ _ _ fun code step hstep => ?_)
      rcases awaitSteps_cases hstep with ⟨edit, -, rfl⟩ | ⟨branch, hbranch, rfl⟩
      · rfl
      · refine congrArg (fun branch => spliceBranch branch code) (Option.map_congr fun part hpart => ?_)
        obtain ⟨slot, hvisit⟩ := hbranch part hpart
        exact hvisits (slot, part) hvisit
    · rw [visits_walk hkind] at hvisits
      rw [emit_walk read identify here hkind, emit_walk read' identify here hkind,
        opening_congr_consults hown]
      refine congrArg (Code.closeOwned _) (List.foldl_ext _ _ _ fun code visit hvisit => ?_)
      rw [hvisits visit hvisit]

end

end TemplateCode
