import TemplateCode.Proofs.Script

/-!
# What a visit leaves of the stack

A visit to a node, from entering it to leaving it, may close blocks that were open before and opens
blocks of its own. What is open at its end was open all the time: of the blocks that were opened on the
way none is left, and none of those that are left was closed in between.

* `Keeps`: operations that never close any of the given outer blocks.
* `keeps_script`: the operations of a tree keep all that is open at their end.
* `emit_frames_eq`: a tree in which no alternative is entered closes only what it has opened.
* `visit_frames`: what a visit does to the stack.
-/

namespace TemplateCode

variable {ι : Type} [DecidableEq ι]

/-! ## Blocks that are kept open -/

/-- Operations that leave the blocks `outer` open all the time, when they are carried out on a stack. -/
def Keeps (outer : List (Option ι)) : List (Option ι) → List (Edit ι) → Prop
  | frames, [] => outer <:+ frames
  | frames, edit :: edits => outer <:+ frames ∧ Keeps outer (edit.onFrames frames) edits

namespace Keeps

variable {outer inner frames : List (Option ι)} {edits more : List (Edit ι)}

theorem suffix (h : Keeps outer frames edits) : outer <:+ frames := by
  cases edits with
  | nil => exact h
  | cons edit edits => exact h.1

theorem mono (hsub : outer <:+ inner) (h : Keeps inner frames edits) : Keeps outer frames edits := by
  induction edits generalizing frames with
  | nil => exact hsub.trans h
  | cons edit edits ih => exact ⟨hsub.trans h.1, ih h.2⟩

theorem append (h : Keeps outer frames edits)
    (h' : Keeps outer (edits.foldl Edit.onFrames frames) more) : Keeps outer frames (edits ++ more) := by
  induction edits generalizing frames with
  | nil => exact h'
  | cons edit edits ih => exact ⟨h.1, ih h.2 h'⟩

/-- The blocks are open at every moment. -/
theorem moment (h : Keeps outer frames edits) {moment : List (Edit ι)} (hmoment : moment <+: edits) :
    outer <:+ moment.foldl Edit.onFrames frames := by
  induction moment generalizing frames edits with
  | nil => exact h.suffix
  | cons edit moment ih =>
    obtain ⟨rest, rfl⟩ := hmoment
    exact ih h.2 (List.prefix_append moment rest)

end Keeps

theorem keeps_close (closed : Nat) (frames : List (Option ι)) :
    Keeps (frames.drop closed) frames (List.replicate closed (.close none)) := by
  induction closed generalizing frames with
  | zero => exact List.suffix_rfl
  | succ closed ih =>
    refine ⟨List.drop_suffix _ _, ?_⟩
    have hrest := ih frames.tail
    rwa [List.drop_tail] at hrest

theorem keeps_writes {owner : ι} {writes : List (Edit ι)} (h : ∀ edit ∈ writes, edit.WritesFor owner)
    {outer frames : List (Option ι)} (hsub : outer <:+ frames) : Keeps outer frames writes := by
  induction writes generalizing frames with
  | nil => exact hsub
  | cons edit writes ih =>
    obtain ⟨hedit, hwrites⟩ := List.forall_mem_cons.1 h
    refine ⟨hsub, ih hwrites ?_⟩
    cases edit with
    | append text => exact hsub
    | declare initializer => exact hsub
    | openBlock header holder => exact hsub.trans (List.suffix_cons _ _)
    | openScope params holder => exact hsub.trans (List.suffix_cons _ _)
    | close holder => exact hedit.elim
    | splice fragment => exact hedit.elim

/-- A node that is entered keeps the blocks that it leaves under its own. -/
theorem keeps_opening (read : Reading) (node : Node) (owner : ι) (parent : Option Kind)
    (chained : Bool) (code : Code ι) :
    ∃ own outer, (code.applyAll (opening read node owner parent chained)).frames =
        List.replicate own (some owner) ++ outer ∧
      Keeps outer code.frames (opening read node owner parent chained) := by
  obtain ⟨own, closed, writes, hopening, hwrites, -, hframes⟩ :=
    opening_frames read node owner parent chained code
  refine ⟨own, code.frames.drop closed, hframes, ?_⟩
  rw [hopening]
  refine (keeps_close closed code.frames).append ?_
  rw [foldl_onFrames_close]
  exact keeps_writes hwrites List.suffix_rfl

/-- The steps of an await block keep whatever was open before. -/
theorem keeps_awaitSteps (read : Reading) (node : Node) (below : List (Slot × List (Script ι)))
    (code : Code ι) :
    Keeps code.frames code.frames
      (Code.sequence ((awaitSteps read node below).map AwaitStep.script) code) := by
  unfold awaitSteps
  cases firstIn .pending below <;> cases firstIn .thenBranch below <;> cases catchBranch node below <;>
    simp [AwaitStep.script, Code.sequence, spliceStep, Keeps, Edit.onFrames]

/-- Steps that each keep what is open at their end keep what is open at the end of all. -/
theorem keeps_sequence {P : Code ι → Prop} {steps : List (Code ι → List (Edit ι))}
    (h : ∀ step ∈ steps, ∀ code, P code → P (code.applyAll (step code)) ∧
      Keeps (code.applyAll (step code)).frames code.frames (step code))
    {code : Code ι} (hcode : P code) :
    Keeps (code.applyAll (Code.sequence steps code)).frames code.frames (Code.sequence steps code) := by
  induction steps generalizing code with
  | nil => exact List.suffix_rfl
  | cons step steps ih =>
    obtain ⟨hstep, hsteps⟩ := List.forall_mem_cons.1 h
    obtain ⟨hnext, hkeeps⟩ := hstep code hcode
    have hrest := ih hsteps hnext
    rw [Code.sequence, Code.applyAll_append]
    refine (hkeeps.mono hrest.suffix).append ?_
    rw [← Code.applyAll_frames]
    exact hrest

/-- **Opening, content and end of a node**: if the content keeps what it leaves, so does the whole. -/
theorem keeps_around {frames outer : List (Option ι)} {owner : ι} {own : Nat}
    {entered content : List (Edit ι)} (hentered : Keeps outer frames entered)
    (hframes : entered.foldl Edit.onFrames frames = List.replicate own (some owner) ++ outer)
    (hcontent : Keeps (content.foldl Edit.onFrames (entered.foldl Edit.onFrames frames))
      (entered.foldl Edit.onFrames frames) content) :
    Keeps ((entered ++ (content ++ [Edit.close (some owner)])).foldl Edit.onFrames frames) frames
      (entered ++ (content ++ [Edit.close (some owner)])) := by
  rw [List.foldl_append, List.foldl_append]
  generalize hleft : content.foldl Edit.onFrames (entered.foldl Edit.onFrames frames) = left at hcontent ⊢
  -- the end of the node takes off what is left of its own blocks, down to what it has kept at most
  have hclosed : [Edit.close (some owner)].foldl Edit.onFrames left =
      left.dropWhile fun frame => frame = some owner := rfl
  have hinner : (left.dropWhile fun frame => decide (frame = some owner)) <:+ left :=
    List.dropWhile_suffix _
  have houter : (left.dropWhile fun frame => decide (frame = some owner)) <:+ outer :=
    dropWhile_suffix own (hframes ▸ hcontent.suffix)
  rw [hclosed]
  refine (hentered.mono houter).append ((hcontent.mono hinner).append ?_)
  rw [hleft]
  exact ⟨hinner, List.suffix_rfl⟩

/-- The operations of a node that is walked: its opening, those of the nodes that a walk visits in it,
and the end of its blocks. -/
theorem script_walk (read : Reading) (identify : Position → ι) {node : Node} (here : Position)
    (h : node.kind ≠ .awaitBlock) (parent : Option (Parent ι)) (code : Code ι) :
    script read identify node here parent code =
      opening read node (identify here) (parent.map Parent.kind) (isChained parent code) ++
        (Code.sequence
          ((walked (node.parts here)).map fun visit =>
            script read identify visit.2.2 visit.2.1 (some ⟨node.kind, identify here⟩))
          (code.applyAll
            (opening read node (identify here) (parent.map Parent.kind) (isChained parent code))) ++
        [.close (some (identify here))]) := by
  rw [script_eq]
  unfold scriptNode nodeSteps
  rw [if_neg h, walked_mapBelow, List.map_map, List.cons_append, Code.sequence, Code.sequence_append]
  rfl

/-- **The operations of a tree keep what is open at their end.** -/
theorem keeps_script (read : Reading) (identify : Position → ι) (root : Node) (here : Position)
    (parent : Option (Parent ι)) (code : Code ι) (hapart : root.Apart identify here code.frames) :
    Keeps (code.applyAll (script read identify root here parent code)).frames code.frames
      (script read identify root here parent code) := by
  induction here, root using Node.located_induction generalizing parent code with
  | step here node ih =>
    by_cases hkind : node.kind = .awaitBlock
    · have hframes : (code.applyAll (script read identify node here parent code)).frames =
          code.frames := by
        rw [← emit_eq_applyAll, emit_await read identify here hkind, Code.closeOwned_frames,
          awaitBlock_frames, dropWhile_of_not_mem hapart.here_foreign]
      rw [hframes, script_eq]
      unfold scriptNode nodeSteps
      rw [if_pos hkind, Code.sequence_append]
      refine (keeps_awaitSteps read node _ code).append ?_
      rw [← Code.applyAll_frames, applyAll_awaitSteps, awaitBlock_frames]
      have hclosed : (Edit.close (some (identify here))).onFrames code.frames = code.frames :=
        dropWhile_of_not_mem hapart.here_foreign
      have hend : Keeps code.frames ((Edit.close (some (identify here))).onFrames code.frames) [] := by
        rw [hclosed]
        exact List.suffix_rfl
      exact ⟨List.suffix_rfl, hend⟩
    · obtain ⟨own, outer, hframes, hopening⟩ := keeps_opening read node (identify here)
        (parent.map Parent.kind) (isChained parent code) code
      rw [script_walk read identify here hkind, Code.applyAll_frames]
      generalize opening read node (identify here) (parent.map Parent.kind) (isChained parent code) =
        entered at hframes hopening ⊢
      refine keeps_around hopening (Code.applyAll_frames code entered ▸ hframes) ?_
      rw [← Code.applyAll_frames, ← Code.applyAll_frames]
      -- each node of the content is met with an outer part of what the opening has left
      refine keeps_sequence (P := fun code' => code'.frames <:+ (code.applyAll entered).frames) ?_
        List.suffix_rfl
      intro step hstep code' hcode'
      obtain ⟨visit, hvisit, rfl⟩ := List.mem_map.1 hstep
      have hpart := snd_mem_of_mem_walked hvisit
      have hpartApart : visit.2.2.Apart identify visit.2.1 code'.frames :=
        hapart.part_of_suffix hpart (hframes ▸ hcode') hopening.suffix
      have hkeeps := ih visit.2 hpart (some ⟨node.kind, identify here⟩) code' hpartApart
      exact ⟨hkeeps.suffix.trans hcode', hkeeps⟩

/-! ## Without alternatives -/

namespace Node

/-- No alternative is met on a walk that does not go below await blocks. -/
def EntersNoElse (root : Node) : Prop :=
  ∀ event ∈ root.walk fun kind => kind = .awaitBlock, event.node.kind ≠ .elseBlock

theorem entersNoElse_iff (here : Position) (root : Node) :
    root.EntersNoElse ↔ root.kind ≠ .elseBlock ∧
      (root.kind ≠ .awaitBlock → ∀ visit ∈ walked (root.parts here), visit.2.2.EntersNoElse) := by
  -- only the nodes matter, so the walks through the parts may start anywhere
  have hmet : ∀ (node : Node) (p : Position) (place : Option Place), node.EntersNoElse ↔
      ∀ met ∈ (node.walkAt (fun kind => kind = .awaitBlock) p place).map Event.node,
        met.kind ≠ .elseBlock := by
    intro node p place
    rw [map_node_walkAt, List.forall_mem_map]
    rfl
  rw [hmet root here none, walkAt_eq]
  by_cases hkind : root.kind = .awaitBlock
  · simp [hkind]
  · simp only [hkind, decide_false, Bool.false_eq_true, if_false, List.map_cons, List.map_append,
      List.map_flatMap, List.map_nil]
    constructor
    · intro h
      refine ⟨h root (by simp), fun _ visit hvisit => ?_⟩
      refine (hmet visit.2.2 visit.2.1 (some ⟨root, visit.1⟩)).2 fun met hmem => h met ?_
      exact List.mem_cons_of_mem _ (List.mem_append_left _ (List.mem_flatMap.2 ⟨visit, hvisit, hmem⟩))
    · rintro ⟨hroot, hparts⟩ met hmem
      rw [List.cons_append, List.mem_cons, List.mem_append, List.mem_flatMap, List.mem_singleton] at hmem
      rcases hmem with rfl | ⟨visit, hvisit, hmem⟩ | rfl
      · exact hroot
      · exact (hmet _ _ _).1 (hparts hkind visit hvisit) met hmem
      · exact hroot

end Node

/-- A condition goes on a chain if it stands in an alternative that has no block open. -/
theorem isChained_iff {parent : Option (Parent ι)} {code : Code ι} :
    isChained parent code = true ↔
      ∃ holder, parent = some ⟨.elseBlock, holder⟩ ∧ some holder ∉ code.frames := by
  have howns : ∀ holder, code.owns holder = true ↔ some holder ∈ code.frames := by
    simp [Code.owns]
  rcases parent with _ | ⟨kind, holder⟩
  · simp [isChained]
  · simp [isChained, ← howns]

/-- **A tree in which no alternative is entered** closes only what it has opened, unless its root goes on
a chain of conditions. -/
theorem emit_frames_eq (read : Reading) (identify : Position → ι) (root : Node) (here : Position)
    (parent : Option (Parent ι)) (code : Code ι) (hapart : root.Apart identify here code.frames)
    (helse : root.EntersNoElse) (hchained : root.kind = .ifBlock → isChained parent code = false) :
    (emit read identify root here parent code).frames = code.frames := by
  induction here, root using Node.located_induction generalizing parent code with
  | step here node ih =>
    obtain ⟨hkindElse, hparts⟩ := (Node.entersNoElse_iff here node).1 helse
    by_cases hkind : node.kind = .awaitBlock
    · rw [emit_await read identify here hkind, Code.closeOwned_frames, awaitBlock_frames,
        dropWhile_of_not_mem hapart.here_foreign]
    · obtain ⟨own, closed, -, -, -, hcloses, hframes⟩ := opening_frames read node (identify here)
        (parent.map Parent.kind) (isChained parent code) code
      obtain rfl : closed = 0 := by
        by_contra hne
        rcases hcloses hne with h | ⟨hif, h⟩
        · exact hkindElse h
        · rw [hchained hif] at h
          cases h
      rw [List.drop_zero] at hframes
      rw [emit_walk read identify here hkind, Code.closeOwned_frames]
      -- the content leaves the stack as the opening has left it
      rw [List.foldlRecOn (motive := fun code' : Code ι => code'.frames =
        List.replicate own (some (identify here)) ++ code.frames) _ _ hframes ?_]
      · rw [List.dropWhile_append_of_pos (by simp), dropWhile_of_not_mem hapart.here_foreign]
      · intro code' hcode' visit hvisit
        have hpart := snd_mem_of_mem_walked hvisit
        rw [ih visit.2 hpart _ code' ?_ (hparts hkind visit hvisit) ?_, hcode']
        · rw [hcode']
          exact hapart.part_of_suffix hpart List.suffix_rfl List.suffix_rfl
        · intro _
          simp [isChained, hkindElse]

/-! ## Visits -/

/-- **What a visit does to the stack.** A tree is visited anywhere, with any parent, while none of its
nodes has a block open. At its end an outer part of the stack is left, without any block of a node of the
tree; and this part was open at every moment of the visit, so that no block of it was opened on the way.
If no alternative is entered, other than in the branches of await blocks, and the root is not a condition
in an alternative without a block of its own, then all that was open is left. -/
theorem visit_frames (read : Reading) (identify : Position → ι) (root : Node) (here : Position)
    (parent : Option (Parent ι)) (code : Code ι) (hapart : root.Apart identify here code.frames) :
    (emit read identify root here parent code).frames <:+ code.frames ∧
    (∀ p ∈ root.positions here,
      some (identify p) ∉ (emit read identify root here parent code).frames) ∧
    emit read identify root here parent code =
      code.applyAll (script read identify root here parent code) ∧
    (∀ moment, moment <+: script read identify root here parent code →
      (emit read identify root here parent code).frames <:+ (code.applyAll moment).frames) ∧
    (root.EntersNoElse →
      ¬ (root.kind = .ifBlock ∧
        ∃ holder, parent = some ⟨.elseBlock, holder⟩ ∧ some holder ∉ code.frames) →
      (emit read identify root here parent code).frames = code.frames) := by
  have hkeeps := keeps_script read identify root here parent code hapart
  rw [← emit_eq_applyAll] at hkeeps
  refine ⟨hkeeps.suffix, fun p hp hmem => ?_, emit_eq_applyAll .., fun moment hmoment => ?_, ?_⟩
  · exact hapart.foreign p hp (hkeeps.suffix.subset hmem)
  · rw [Code.applyAll_frames]
    exact hkeeps.moment hmoment
  · intro helse hchain
    refine emit_frames_eq read identify root here parent code hapart helse fun hif => ?_
    rw [← Bool.not_eq_true, isChained_iff]
    exact fun h => hchain ⟨hif, h⟩

/-- A block with two alternatives, to neither of which it gives a place. -/
def strayAlternatives : Node :=
  { kind := .keyBlock, fields := [.many .children [{ kind := .elseBlock }, { kind := .elseBlock }]] }

/-- A condition in an alternative, with an alternative in the branch of an await block. -/
def awaitedAlternative : Node :=
  { kind := .ifBlock
    fields := [.many .children [
      { kind := .awaitBlock, fields := [.one .thenBranch strayAlternatives] }, { kind := .keyBlock }]] }

/-- Code in which an alternative and an await block have a block open. -/
def alternativeCode : Code Position :=
  ((Code.start 0).openBlock "else" (some [])).openBlock "try" none

theorem visit_frames_alternatives :
    ((emit (Span.readIn "") id strayAlternatives [(0, 0)] none alternativeCode).frames <:+
        [none, some []] ∧
      (emit (Span.readIn "") id strayAlternatives [(0, 0)] none alternativeCode).frames = [some []]) ∧
    (emit (Span.readIn "") id awaitedAlternative [(0, 0)] (some ⟨.elseBlock, []⟩)
      alternativeCode).frames = [none, some []] := by
  have hstray : strayAlternatives.Apart id [(0, 0)] alternativeCode.frames :=
    ⟨Set.injOn_id _, by decide +kernel⟩
  have hawaited : awaitedAlternative.Apart id [(0, 0)] alternativeCode.frames :=
    ⟨Set.injOn_id _, by decide +kernel⟩
  have helse : awaitedAlternative.EntersNoElse := by
    unfold Node.EntersNoElse
    decide +kernel
  refine ⟨⟨(visit_frames _ id strayAlternatives [(0, 0)] none alternativeCode hstray).1,
    by decide +kernel⟩, ?_⟩
  refine (visit_frames _ id awaitedAlternative [(0, 0)] (some ⟨.elseBlock, []⟩) alternativeCode
    hawaited).2.2.2.2 helse ?_
  rintro ⟨-, holder, hholder, hclosed⟩
  cases hholder
  exact hclosed (by decide)

end TemplateCode
