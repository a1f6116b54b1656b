import TemplateCode.Proofs.Frames
import Mathlib.Data.List.Forall2

/-!
# The operations of a run

What a tree does to code under construction is a list of operations. Which ones they are depends on
the code, since a conditional block asks whether its parent has a block open, and since the branches
of an await block are spliced in as finished fragments.

* `script` lists the operations of a tree in the order they are carried out.
* `emit_eq_applyAll`: carrying them out is the effect of the tree.
* `Code.sequence_map`: how two runs are compared step by step.
* `owner?_script`: the operations name no owners but those of the nodes of the tree.
-/

namespace TemplateCode

variable {ι : Type} [DecidableEq ι]

/-- The operations of a node, given its parent and the code it is met with. -/
abbrev Script (ι : Type) := Option (Parent ι) → Code ι → List (Edit ι)

namespace Code

/-- The operations of several steps, each of which sees what the steps before it have done. -/
def sequence : List (Code ι → List (Edit ι)) → Code ι → List (Edit ι)
  | [], _ => []
  | step :: steps, code => step code ++ sequence steps (code.applyAll (step code))

theorem sequence_append (steps more : List (Code ι → List (Edit ι))) (code : Code ι) :
    sequence (steps ++ more) code =
      sequence steps code ++ sequence more (code.applyAll (sequence steps code)) := by
  induction steps generalizing code with
  | nil => rfl
  | cons step steps ih =>
    rw [List.cons_append, sequence, sequence, ih, List.append_assoc, applyAll_append]

theorem applyAll_sequence (steps : List (Code ι → List (Edit ι))) (code : Code ι) :
    code.applyAll (sequence steps code) =
      steps.foldl (fun code step => code.applyAll (step code)) code := by
  induction steps generalizing code with
  | nil => rfl
  | cons step steps ih => rw [sequence, applyAll_append, ih, List.foldl_cons]

theorem mem_sequence {steps : List (Code ι → List (Edit ι))} {code : Code ι} {edit : Edit ι}
    (h : edit ∈ sequence steps code) : ∃ step ∈ steps, ∃ code', edit ∈ step code' := by
  induction steps generalizing code with
  | nil => cases h
  | cons step steps ih =>
    rw [sequence, List.mem_append] at h
    rcases h with h | h
    · exact ⟨step, List.mem_cons_self, code, h⟩
    · obtain ⟨step', hstep, code', hedit⟩ := ih h
      exact ⟨step', List.mem_cons_of_mem _ hstep, code', hedit⟩

end Code

/-- The fragment that a script writes in a run of its own. -/
def Script.run (script : Script ι) (seed : UInt64) : Fragment :=
  ((Code.start seed).applyAll (script none (Code.start seed))).fragment

/-- Splices a branch in, if there is one. -/
def spliceStep (branch : Option (Script ι)) (code : Code ι) : List (Edit ι) :=
  match branch with
  | some script => [.splice (script.run code.counter)]
  | none => []

/-- The operations of a step of an await block, given those of its branches. -/
def AwaitStep.script : AwaitStep ι (Script ι) → Code ι → List (Edit ι)
  | edit operation => fun _ => [operation]
  | splice branch => spliceStep branch

/-- What a node does between being entered and being left, given the scripts of the nodes in its
fields. -/
def nodeSteps (read : Reading) (node : Node) (below : List (Slot × List (Script ι))) (owner : ι)
    (parent : Option (Parent ι)) : List (Code ι → List (Edit ι)) :=
  if node.kind = .awaitBlock then
    (awaitSteps read node below).map AwaitStep.script
  else
    (fun code => opening read node owner (parent.map Parent.kind) (isChained parent code)) ::
      (walked below).map fun visit => visit.2 (some ⟨node.kind, owner⟩)

/-- The operations of a node, given those of the nodes in its fields. -/
def scriptNode (read : Reading) (node : Node) (below : List (Slot × List (Script ι))) (owner : ι) :
    Script ι := fun parent =>
  Code.sequence (nodeSteps read node below owner parent ++ [fun _ => [.close (some owner)]])

/-- The operations of a tree at a position. -/
def script (read : Reading) (identify : Position → ι) (root : Node) : Position → Script ι :=
  root.fold fun node below here => scriptNode read node (locate here below) (identify here)

theorem script_eq (read : Reading) (identify : Position → ι) (node : Node) (here : Position) :
    script read identify node here =
      scriptNode read node
        (mapBelow (fun part => script read identify part.2 part.1) (node.parts here))
        (identify here) := by
  unfold script
  rw [Node.fold_eq, Node.locate_fields]

theorem applyAll_awaitSteps (read : Reading) (node : Node) (below : List (Slot × List (Script ι)))
    (code : Code ι) :
    code.applyAll (Code.sequence ((awaitSteps read node below).map AwaitStep.script) code) =
      awaitBlock read node
        (mapBelow (fun script parent code => code.applyAll (script parent code)) below) code := by
  rw [awaitBlock_mapBelow, Code.applyAll_sequence, List.foldl_map]
  refine List.foldl_ext _ _ _ fun code step _ => ?_
  rcases step with edit | (_ | branch) <;> rfl

/-- **The effect of a tree is to carry out its operations.** -/
theorem emit_eq_applyAll (read : Reading) (identify : Position → ι) (root : Node) (here : Position)
    (parent : Option (Parent ι)) (code : Code ι) :
    emit read identify root here parent code =
      code.applyAll (script read identify root here parent code) := by
  induction here, root using Node.located_induction generalizing parent code with
  | step here node ih =>
    -- the effect of each part is what its own script does
    have hparts :
        mapBelow (fun part => emit read identify part.2 part.1) (node.parts here) =
          mapBelow (fun script parent code => code.applyAll (script parent code))
            (mapBelow (fun part => script read identify part.2 part.1) (node.parts here)) := by
      rw [mapBelow_mapBelow]
      apply mapBelow_congr
      intro part hpart
      funext parent code
      exact ih part hpart parent code
    rw [emit_eq, script_eq, hparts]
    unfold emitNode scriptNode nodeSteps
    rw [Code.applyAll_sequence, List.foldl_append]
    simp only [List.foldl_cons, List.foldl_nil, Code.applyAll_cons, Code.applyAll_nil]
    split
    · rw [← applyAll_awaitSteps, Code.applyAll_sequence]
      rfl
    · unfold emitContent
      rw [walked_mapBelow, List.foldl_map, List.foldl_cons, List.foldl_map]
      rfl

/-! ## Two runs side by side -/

/-- **Two sequences of steps go in step** if each step does on the second side what it does on the
first, carried over. `Fits` is what is known of the operations that are carried out on the first
side. -/
theorem Code.sequence_map {κ : Type} [DecidableEq κ] (carry : Code ι → Code κ)
    (move : Edit ι → Edit κ) {Fits : Code ι → List (Edit ι) → Prop}
    (hsplit : ∀ {code edits more}, Fits code (edits ++ more) →
      Fits code edits ∧ Fits (code.applyAll edits) more)
    (hcarry : ∀ {code edits}, Fits code edits →
      (carry code).applyAll (edits.map move) = carry (code.applyAll edits))
    {steps : List (Code ι → List (Edit ι))} {steps' : List (Code κ → List (Edit κ))}
    (hsteps : List.Forall₂
      (fun step step' => ∀ code, Fits code (step code) → step' (carry code) = (step code).map move)
      steps steps')
    {code : Code ι} (hfits : Fits code (sequence steps code)) :
    sequence steps' (carry code) = (sequence steps code).map move := by
  induction hsteps generalizing code with
  | nil => rfl
  | cons hstep _ ih =>
    obtain ⟨hfirst, hrest⟩ := hsplit hfits
    rw [sequence, sequence, List.map_append, hstep code hfirst, hcarry hfirst, ih hrest]

/-! ## Owners -/

/-- The owner that an operation names. -/
def Edit.owner? : Edit ι → Option ι
  | .openBlock _ owner | .openScope _ owner | .close owner => owner
  | .append _ | .declare _ | .splice _ => none

omit [DecidableEq ι] in
theorem owner?_opening {read : Reading} {node : Node} {owner holder : ι} {parent : Option Kind}
    {chained : Bool} {edit : Edit ι} (hedit : edit ∈ opening read node owner parent chained)
    (hholder : edit.owner? = some holder) : holder = owner := by
  obtain ⟨closed, writes, hopening, hwrites, -⟩ := opening_shape read node owner parent chained
  rw [hopening, List.mem_append] at hedit
  rcases hedit with hedit | hedit
  · rw [List.eq_of_mem_replicate hedit] at hholder
    cases hholder
  · have hwrite := hwrites edit hedit
    cases edit with
    | openBlock header _ => exact Option.some.inj (hholder.symm.trans hwrite)
    | openScope params _ => exact Option.some.inj (hholder.symm.trans hwrite)
    | append text => cases hholder
    | declare initializer => cases hholder
    | close _ => exact hwrite.elim
    | splice fragment => cases hholder

theorem owner?_awaitSteps {read : Reading} {node : Node} {below : List (Slot × List (Script ι))}
    {step : AwaitStep ι (Script ι)} (hstep : step ∈ awaitSteps read node below) {code : Code ι}
    {edit : Edit ι} (hedit : edit ∈ step.script code) : edit.owner? = none := by
  rcases awaitSteps_cases hstep with ⟨operation, hplain, rfl⟩ | ⟨branch, -, rfl⟩
  · rw [List.mem_singleton.1 hedit]
    cases hplain <;> rfl
  · cases branch with
    | none => cases hedit
    | some script => rw [List.mem_singleton.1 hedit, Edit.owner?]

/-- **A tree names no owners but those of its own nodes.** -/
theorem owner?_script {read : Reading} {identify : Position → ι} {root : Node} {here : Position}
    {parent : Option (Parent ι)} {code : Code ι} {edit : Edit ι}
    (hedit : edit ∈ script read identify root here parent code) {owner : ι}
    (howner : edit.owner? = some owner) : ∃ p ∈ root.positions here, owner = identify p := by
  induction here, root using Node.located_induction generalizing parent code with
  | step here node ih =>
    have hhere := node.here_mem_positions here
    rw [script_eq] at hedit
    obtain ⟨step, hstep, code', hedit⟩ := Code.mem_sequence hedit
    rw [List.mem_append, List.mem_singleton] at hstep
    rcases hstep with hstep | rfl
    · unfold nodeSteps at hstep
      split at hstep
      · obtain ⟨awaitStep, hmem, rfl⟩ := List.mem_map.1 hstep
        rw [owner?_awaitSteps hmem hedit] at howner
        cases howner
      · rw [walked_mapBelow, List.map_map, List.mem_cons, List.mem_map] at hstep
        rcases hstep with rfl | ⟨visit, hvisit, rfl⟩
        · exact ⟨here, hhere, owner?_opening hedit howner⟩
        · have hpart := snd_mem_of_mem_walked hvisit
          obtain ⟨p, hp, rfl⟩ := ih visit.2 hpart hedit
          exact ⟨p, Node.positions_of_held hpart hp, rfl⟩
    · rw [List.mem_singleton.1 hedit] at howner
      exact ⟨here, hhere, (Option.some.inj howner).symm⟩

end TemplateCode
