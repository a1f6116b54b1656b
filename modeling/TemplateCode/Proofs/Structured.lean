import TemplateCode.Proofs.Regular
import Mathlib.Data.List.Chain

/-!
# The structure of the code

The code of a regular tree, which is written with a stack of open blocks, is what its statements are
printed as.

* `Prints`: what a node does to code under construction, in terms of its statements.
* `emit_ifBlock`, `emit_alternative`, `emit_fallback`, `emit_eachBlock`, `emit_awaitBlock` and
  `emit_plain`: a node does so if the nodes below it do, one statement for each kind of node.
* `prints`: every node of a regular tree does so.
* `Node.statements_chain`: a chain of conditions is flat.
* `fragment_eq_printAll`: the code of a regular tree is what its statements are printed as.
-/

namespace TemplateCode

variable {ι : Type} [DecidableEq ι]

namespace Code

theorem closeOwned_of_cons {owner : ι} (code : Code ι) {outer : List (Option ι)}
    (hframes : code.frames = some owner :: outer) (howner : some owner ∉ outer) :
    code.closeOwned owner = code.closeInnermost := by
  unfold closeOwned
  rw [hframes, List.takeWhile_cons_of_pos (by simp), takeWhile_of_not_mem howner]
  rfl

end Code

/-- **What a node comes to**, wherever it is met. A node that goes on with a chain of conditions closes
the block before it first; an alternative closes the block that it belongs to, and after a loop the
guard of the loop too. -/
structure Prints (read : Reading) (identify : Position → ι) (here : Position) (node : Node) : Prop where
  apart : node.kind ≠ .elseBlock → ∀ (parent : Option (Parent ι)) (code : Code ι),
    (node.kind = .ifBlock → isChained parent code = false) → node.Apart identify here code.frames →
    emit read identify node here parent code = code.print (node.statements read false)
  chained : node.kind = .ifBlock → ∀ (parent : Option (Parent ι)) (code : Code ι),
    isChained parent code = true → node.Apart identify here code.frames →
    emit read identify node here parent code = code.closeInnermost.print (node.statements read true)
  alternative : node.kind = .elseBlock → ∀ (owner : ι) (code : Code ι),
    node.Apart identify here code.frames →
    emit read identify node here (some ⟨.ifBlock, owner⟩) code =
      code.closeInnermost.print (node.statements read true)
  fallback : node.kind = .elseBlock → ∀ (owner : ι) (code : Code ι),
    node.Apart identify here code.frames →
    emit read identify node here (some ⟨.eachBlock, owner⟩) code =
      code.closeInnermost.closeInnermost.print (node.statements read false)

section

variable {read : Reading} {identify : Position → ι} {node : Node} {here : Position}

/-- Content without alternatives is printed one node after the other. -/
theorem foldl_emit_print {parent : Parent ι} {visits : List (Slot × Position × Node)}
    {frames : List (Option ι)}
    (hprints : ∀ visit ∈ visits, Prints read identify visit.2.1 visit.2.2)
    (hkind : ∀ visit ∈ visits, visit.2.2.kind ≠ .elseBlock)
    (hapart : ∀ visit ∈ visits, visit.2.2.Apart identify visit.2.1 frames)
    (hparent : parent.kind ≠ .elseBlock ∨ some parent.owner ∈ frames) (code : Code ι)
    (hframes : code.frames = frames) :
    visits.foldl (fun code visit => emit read identify visit.2.2 visit.2.1 (some parent) code) code =
      code.print (visits.flatMap fun visit => visit.2.2.statements read false) := by
  induction visits generalizing code with
  | nil => rfl
  | cons visit visits ih =>
    -- only an alternative without a block of its own lets its content go on with a chain
    have hchained : isChained (some parent) code = false := by
      unfold isChained Code.owns
      rw [hframes]
      rcases hparent with hparent | hparent
      · simp [hparent]
      · simp [hparent]
    obtain ⟨hprint, hprints⟩ := List.forall_mem_cons.1 hprints
    obtain ⟨hne, hkind⟩ := List.forall_mem_cons.1 hkind
    obtain ⟨hhead, hapart⟩ := List.forall_mem_cons.1 hapart
    rw [List.foldl_cons, List.flatMap_cons, Code.print_append,
      hprint.apart hne _ code (fun _ => hchained) (hframes ▸ hhead)]
    -- printing leaves the stack as it was, so the next node is met with the same one
    exact ih hprints hkind hapart _ hframes

/-- The nodes in the content of a node that is walked. -/
theorem content_print (hreg : node.RegularAt) (hawait : node.kind ≠ .awaitBlock)
    (ih : ∀ visit ∈ walked (node.parts here), Prints read identify visit.2.1 visit.2.2)
    {frames : List (Option ι)} (hapart : node.Apart identify here frames)
    {content : List (Slot × Position × Node)}
    (hcontent : ∀ visit ∈ content, visit ∈ walked (node.parts here) ∧
      (node.takesAlternative = true → visit.1 ≠ .elseBranch))
    (code : Code ι) (hframes : ∀ frame ∈ code.frames, frame = some (identify here) ∨ frame ∈ frames)
    (hparent : node.kind ≠ .elseBlock ∨ some (identify here) ∈ code.frames) :
    content.foldl (fun code visit =>
        emit read identify visit.2.2 visit.2.1 (some ⟨node.kind, identify here⟩) code) code =
      code.print (content.flatMap fun visit => visit.2.2.statements read false) := by
  refine foldl_emit_print ?_ ?_ ?_ hparent code rfl
  · exact fun visit hvisit => ih visit (hcontent visit hvisit).1
  · intro visit hvisit
    obtain ⟨hmem, hslot⟩ := hcontent visit hvisit
    exact hreg.kind_ne (visits_walk hawait (node.parts here) ▸ hmem) hslot
  · exact fun visit hvisit => hapart.part (snd_mem_of_mem_walked (hcontent visit hvisit).1) hframes

theorem walk_print (hreg : node.RegularAt) (hawait : node.kind ≠ .awaitBlock)
    (htakes : node.takesAlternative = false)
    (ih : ∀ visit ∈ walked (node.parts here), Prints read identify visit.2.1 visit.2.2)
    {frames : List (Option ι)} (hapart : node.Apart identify here frames) (code : Code ι)
    (hframes : ∀ frame ∈ code.frames, frame = some (identify here) ∨ frame ∈ frames)
    (hparent : node.kind ≠ .elseBlock ∨ some (identify here) ∈ code.frames) :
    (walked (node.parts here)).foldl (fun code visit =>
        emit read identify visit.2.2 visit.2.1 (some ⟨node.kind, identify here⟩) code) code =
      code.print ((walked (node.parts here)).flatMap fun visit =>
        visit.2.2.statements read false) := by
  refine content_print hreg hawait ih hapart (fun visit hvisit => ⟨hvisit, fun h => ?_⟩) code hframes
    hparent
  rw [htakes] at h
  cases h

theorem filter_alternative {body : List (Slot × Position × Node)}
    (h : ∀ visit ∈ body, visit.1 ≠ .elseBranch) :
    (body.filter fun visit => visit.1 ≠ .elseBranch) = body ∧
      (body.filter fun visit => visit.1 = .elseBranch) = [] := by
  constructor
  · exact List.filter_eq_self.2 fun visit hvisit => by simpa using h visit hvisit
  · exact List.filter_eq_nil_iff.2 fun visit hvisit => by simpa using h visit hvisit

/-- **The content of a condition or a loop**, walked after the node has opened its blocks: the body is
printed, and then the alternative is met, if there is one. -/
theorem walk_alternative (hreg : node.RegularAt) (htakes : node.takesAlternative = true)
    (ih : ∀ visit ∈ walked (node.parts here), Prints read identify visit.2.1 visit.2.2)
    {frames : List (Option ι)} (hapart : node.Apart identify here frames) {opened : Code ι}
    (hframes : ∀ frame ∈ opened.frames, frame = some (identify here) ∨ frame ∈ frames)
    {body : List Statement}
    (hbody : body = ((walked (node.parts here)).filter fun visit => visit.1 ≠ .elseBranch).flatMap
      fun visit => visit.2.2.statements read false) :
    let walk := (walked (node.parts here)).foldl (fun code visit =>
      emit read identify visit.2.2 visit.2.1 (some ⟨node.kind, identify here⟩) code) opened
    let alternative := (walked (node.parts here)).filter fun visit => visit.1 = .elseBranch
    (alternative = [] ∧ (node.field? .elseBranch).isSome = false ∧ walk = opened.print body) ∨
      ∃ part, alternative = [(.elseBranch, part)] ∧ (node.field? .elseBranch).isSome = true ∧
        part.2.kind = .elseBlock ∧ Prints read identify part.1 part.2 ∧
        part.2.Apart identify part.1 opened.frames ∧
        walk = emit read identify part.2 part.1 (some ⟨node.kind, identify here⟩)
          (opened.print body) := by
  have hkind : node.kind ≠ .awaitBlock ∧ node.kind ≠ .elseBlock := by
    unfold Node.takesAlternative at htakes
    constructor <;> intro h <;> simp [h] at htakes
  have hcontent := fun (content : List (Slot × Position × Node)) hcontent =>
    @content_print _ _ _ _ _ _ hreg hkind.1 ih _ hapart content hcontent opened hframes (Or.inl hkind.2)
  intro walk alternative
  rcases hreg.alternative_cases htakes here with
    ⟨hslots, hnone⟩ | ⟨others, part, hwalked, hslots, hpart, field, hfield, -⟩
  · obtain ⟨hne, heq⟩ := filter_alternative hslots
    refine Or.inl ⟨heq, by rw [hnone]; rfl, ?_⟩
    rw [hbody, hne]
    exact hcontent _ fun visit hvisit => ⟨hvisit, fun _ => hslots visit hvisit⟩
  · obtain ⟨hne, heq⟩ := filter_alternative hslots
    have hmem : (Slot.elseBranch, part) ∈ walked (node.parts here) :=
      hwalked ▸ List.mem_append_right _ List.mem_cons_self
    refine Or.inr ⟨part, ?_, by rw [hfield]; rfl, hpart, ih _ hmem,
      hapart.part (snd_mem_of_mem_walked hmem) hframes, ?_⟩
    · simp only [alternative, hwalked, List.filter_append, heq]
      rfl
    · have hbody' : body = others.flatMap fun visit => visit.2.2.statements read false := by
        rw [hbody, hwalked, List.filter_append, hne]
        simp
      have hothers := hcontent others fun visit hvisit =>
        ⟨hwalked ▸ List.mem_append_left _ hvisit, fun _ => hslots visit hvisit⟩
      rw [hbody', ← hothers]
      simp only [walk, hwalked, List.foldl_append, List.foldl_cons, List.foldl_nil]

/-- **A conditional block** prints its clause and then its alternative, after closing the block before
it if it goes on with a chain. -/
theorem emit_ifBlock (hreg : node.RegularAt) (hkind : node.kind = .ifBlock)
    (ih : ∀ visit ∈ walked (node.parts here), Prints read identify visit.2.1 visit.2.2)
    (parent : Option (Parent ι)) {code : Code ι} (hapart : node.Apart identify here code.frames) :
    emit read identify node here parent code =
      (if isChained parent code then code.closeInnermost else code).print
        (node.statements read (isChained parent code)) := by
  have hawait : node.kind ≠ .awaitBlock := by simp [hkind]
  have htakes : node.takesAlternative = true := by simp [Node.takesAlternative, hkind]
  rw [emit_walk read identify here hawait, Node.statements_ifBlock read here hkind]
  generalize hchained : isChained parent code = chained
  generalize hbase : (if chained then code.closeInnermost else code) = base
  have hopening : code.applyAll (opening read node (identify here) (parent.map Parent.kind) chained) =
      base.openBlock (node.ifHeader read chained) (some (identify here)) := by
    subst hbase
    cases chained <;> simp [opening, hkind, ifBlock, Code.apply, Node.ifHeader]
  have hsub : ∀ frame ∈ base.frames, frame ∈ code.frames := by
    subst hbase
    cases chained
    · exact fun frame h => h
    · exact fun frame h => Code.mem_of_mem_closeInnermost h
  have hforeign : some (identify here) ∉ base.frames := fun h => hapart.here_foreign (hsub _ h)
  have hopen : (base.openBlock (node.ifHeader read chained) (some (identify here))).frames =
      some (identify here) :: base.frames := Code.openBlock_frames ..
  have hframes : ∀ frame ∈
      (base.openBlock (node.ifHeader read chained) (some (identify here))).frames,
      frame = some (identify here) ∨ frame ∈ code.frames := by
    intro frame hframe
    rw [hopen, List.mem_cons] at hframe
    exact hframe.imp_right (hsub frame)
  rw [hopening]
  -- from here on only the stack of the opened code matters, and what closing it comes to
  generalize hbody : ((walked (node.parts here)).filter fun visit => visit.1 ≠ .elseBranch).flatMap
    (fun visit => visit.2.2.statements read false) = body
  have hblock := Code.openBlock_print (node.ifHeader read chained) (some (identify here)) body base
  generalize base.openBlock (node.ifHeader read chained) (some (identify here)) = opened at *
  rcases walk_alternative hreg htakes ih hapart hframes hbody.symm with
    ⟨halternative, -, hwalk⟩ | ⟨part, halternative, -, hpart, hprints, hpartApart, hwalk⟩
  · -- the block is still open when the node is left
    rw [hwalk, halternative, List.flatMap_nil,
      Code.closeOwned_of_cons (opened.print body) hopen hforeign, hblock]
  · -- the alternative has closed the block, and nothing is left to close
    rw [hwalk, hkind, halternative, List.flatMap_singleton,
      hprints.alternative hpart _ (opened.print body) hpartApart, hblock, ← Code.print_cons,
      Code.closeOwned_of_not_mem (base.print _) hforeign]

/-- **A node that puts one block around its content** closes it when it is left. -/
theorem walk_enclosed (hreg : node.RegularAt) (hawait : node.kind ≠ .awaitBlock)
    (htakes : node.takesAlternative = false)
    (ih : ∀ visit ∈ walked (node.parts here), Prints read identify visit.2.1 visit.2.2)
    {frames outer : List (Option ι)} (hapart : node.Apart identify here frames) {opened : Code ι}
    (hopened : opened.frames = some (identify here) :: outer)
    (houter : ∀ frame ∈ outer, frame ∈ frames) :
    ((walked (node.parts here)).foldl (fun code visit =>
        emit read identify visit.2.2 visit.2.1 (some ⟨node.kind, identify here⟩) code)
        opened).closeOwned (identify here) =
      (opened.print ((walked (node.parts here)).flatMap fun visit =>
        visit.2.2.statements read false)).closeInnermost := by
  have hforeign : some (identify here) ∉ outer := fun h => hapart.here_foreign (houter _ h)
  have hframes : ∀ frame ∈ opened.frames, frame = some (identify here) ∨ frame ∈ frames := by
    intro frame hframe
    rw [hopened, List.mem_cons] at hframe
    exact hframe.imp_right (houter frame)
  rw [walk_print hreg hawait htakes ih hapart opened hframes (Or.inr (hopened ▸ List.mem_cons_self))]
  exact Code.closeOwned_of_cons (opened.print _) hopened hforeign

/-- **An alternative that is not folded** prints a block of its own, after closing what it has to. -/
theorem walk_else (hreg : node.RegularAt) (hkind : node.kind = .elseBlock)
    (ih : ∀ visit ∈ walked (node.parts here), Prints read identify visit.2.1 visit.2.2)
    {code base : Code ι} (hapart : node.Apart identify here code.frames)
    (hsub : ∀ frame ∈ base.frames, frame ∈ code.frames) :
    ((walked (node.parts here)).foldl (fun code visit =>
        emit read identify visit.2.2 visit.2.1 (some ⟨node.kind, identify here⟩) code)
        (base.openBlock "else" (some (identify here)))).closeOwned (identify here) =
      base.print [.block "else" ((walked (node.parts here)).flatMap fun visit =>
        visit.2.2.statements read false)] := by
  have hawait : node.kind ≠ .awaitBlock := by simp [hkind]
  have htakes : node.takesAlternative = false := by simp [Node.takesAlternative, hkind]
  rw [walk_enclosed hreg hawait htakes ih hapart (Code.openBlock_frames _ _ base) hsub]
  exact Code.openBlock_print "else" _ _ base

theorem emit_alternative (hreg : node.RegularAt) (hkind : node.kind = .elseBlock)
    (ih : ∀ visit ∈ walked (node.parts here), Prints read identify visit.2.1 visit.2.2)
    (owner : ι) {code : Code ι} (hapart : node.Apart identify here code.frames) :
    emit read identify node here (some ⟨.ifBlock, owner⟩) code =
      code.closeInnermost.print (node.statements read true) := by
  have hawait : node.kind ≠ .awaitBlock := by simp [hkind]
  have hsub : ∀ frame ∈ code.closeInnermost.frames, frame ∈ code.frames :=
    fun frame h => Code.mem_of_mem_closeInnermost h
  rw [emit_walk read identify here hawait, Node.statements_elseBlock read here hkind, Bool.true_and]
  by_cases hfold : node.holdsOnlyIf
  · -- the one child goes on with the chain, since there is no block of the alternative
    have hopening : opening read node (identify here) (some .ifBlock)
        (isChained (some ⟨.ifBlock, owner⟩) code) = [] := by
      simp [opening, hkind, elseBlock, hfold]
    obtain ⟨part, hwalked, -, hpart⟩ := hreg.walked_only hkind hfold here
    have hmem : (Slot.children, part) ∈ walked (node.parts here) := hwalked ▸ List.mem_cons_self
    have hprints := ih _ hmem
    have hpartApart : part.2.Apart identify part.1 code.frames :=
      hapart.part (snd_mem_of_mem_walked hmem) fun frame h => Or.inr h
    have hchained : isChained (some ⟨node.kind, identify here⟩) code = true := by
      simp [isChained, hkind, Code.owns_of_not_mem hapart.here_foreign]
    have hforeign : some (identify here) ∉ code.closeInnermost.frames :=
      fun h => hapart.here_foreign (hsub _ h)
    rw [if_pos hfold, hwalked]
    simp only [List.foldl_cons, List.foldl_nil, List.flatMap_cons, List.flatMap_nil,
      List.append_nil, Option.map_some, hopening, Code.applyAll_nil]
    rw [hprints.chained hpart _ code hchained hpartApart]
    exact Code.closeOwned_of_not_mem (Code.print _ _) hforeign
  · have hopening : code.applyAll (opening read node (identify here) (some .ifBlock)
        (isChained (some ⟨.ifBlock, owner⟩) code)) =
          code.closeInnermost.openBlock "else" (some (identify here)) := by
      simp [opening, hkind, elseBlock, hfold, Code.apply]
    rw [if_neg hfold, ← walk_else hreg hkind ih hapart hsub, ← hopening]
    rfl

theorem emit_fallback (hreg : node.RegularAt) (hkind : node.kind = .elseBlock)
    (ih : ∀ visit ∈ walked (node.parts here), Prints read identify visit.2.1 visit.2.2)
    (owner : ι) {code : Code ι} (hapart : node.Apart identify here code.frames) :
    emit read identify node here (some ⟨.eachBlock, owner⟩) code =
      code.closeInnermost.closeInnermost.print (node.statements read false) := by
  have hawait : node.kind ≠ .awaitBlock := by simp [hkind]
  have hsub : ∀ frame ∈ code.closeInnermost.closeInnermost.frames, frame ∈ code.frames :=
    fun frame h => Code.mem_of_mem_closeInnermost (Code.mem_of_mem_closeInnermost h)
  have hopening : code.applyAll (opening read node (identify here) (some .eachBlock)
      (isChained (some ⟨.eachBlock, owner⟩) code)) =
        code.closeInnermost.closeInnermost.openBlock "else" (some (identify here)) := by
    simp [opening, hkind, elseBlock, Code.apply]
  rw [emit_walk read identify here hawait, Node.statements_elseBlock read here hkind, Bool.false_and,
    if_neg Bool.false_ne_true, ← walk_else hreg hkind ih hapart hsub, ← hopening]
  rfl

/-- **A loop** prints a block, and with an alternative a guard around it and the alternative after
that. -/
theorem emit_eachBlock (hreg : node.RegularAt) (hkind : node.kind = .eachBlock)
    (ih : ∀ visit ∈ walked (node.parts here), Prints read identify visit.2.1 visit.2.2)
    (parent : Option (Parent ι)) {code : Code ι} (hapart : node.Apart identify here code.frames) :
    emit read identify node here parent code = code.print (node.statements read false) := by
  have hawait : node.kind ≠ .awaitBlock := by simp [hkind]
  have htakes : node.takesAlternative = true := by simp [Node.takesAlternative, hkind]
  rw [emit_walk read identify here hawait, Node.statements_eachBlock read here hkind]
  generalize hbody : ((walked (node.parts here)).filter fun visit => visit.1 ≠ .elseBranch).flatMap
    (fun visit => visit.2.2.statements read false) = body
  have hforeign := hapart.here_foreign
  cases hsome : (node.field? .elseBranch).isSome with
  | false =>
    have hopening : code.applyAll (opening read node (identify here) (parent.map Parent.kind)
        (isChained parent code)) = code.openBlock (node.forHeader read) (some (identify here)) := by
      simp [opening, hkind, eachBlock, hsome, Code.apply, Node.forHeader]
    have hopen := Code.openBlock_frames (node.forHeader read) (some (identify here)) code
    have hblock := Code.openBlock_print (node.forHeader read) (some (identify here)) body code
    rw [hopening]
    generalize code.openBlock (node.forHeader read) (some (identify here)) = opened at *
    have hframes : ∀ frame ∈ opened.frames, frame = some (identify here) ∨ frame ∈ code.frames :=
      fun frame hframe => List.mem_cons.1 (hopen ▸ hframe)
    rcases walk_alternative hreg htakes ih hapart hframes hbody.symm with
      ⟨halternative, -, hwalk⟩ | ⟨part, -, hsome', -⟩
    · rw [hwalk, halternative, Code.closeOwned_of_cons (opened.print body) hopen hforeign, hblock]
      rfl
    · rw [hsome] at hsome'
      cases hsome'
  | true =>
    have hopening : code.applyAll (opening read node (identify here) (parent.map Parent.kind)
        (isChained parent code)) =
          (code.openBlock ("if (" ++ node.expression read ++ ")") (some (identify here))).openBlock
            (node.forHeader read) (some (identify here)) := by
      simp [opening, hkind, eachBlock, hsome, Code.apply, Node.forHeader]
    have hguard := Code.openBlock_frames ("if (" ++ node.expression read ++ ")")
      (some (identify here)) code
    have hguardBlock := Code.openBlock_print ("if (" ++ node.expression read ++ ")")
      (some (identify here)) [.block (node.forHeader read) body] code
    rw [hopening]
    -- both blocks belong to the node, and the alternative closes both
    generalize code.openBlock ("if (" ++ node.expression read ++ ")") (some (identify here)) =
      guard at *
    have hopen := Code.openBlock_frames (node.forHeader read) (some (identify here)) guard
    have hblock := Code.openBlock_print (node.forHeader read) (some (identify here)) body guard
    generalize guard.openBlock (node.forHeader read) (some (identify here)) = opened at *
    have hframes : ∀ frame ∈ opened.frames, frame = some (identify here) ∨ frame ∈ code.frames := by
      intro frame hframe
      rw [hopen, hguard, List.mem_cons, List.mem_cons] at hframe
      exact hframe.elim Or.inl id
    rcases walk_alternative hreg htakes ih hapart hframes hbody.symm with
      ⟨-, hsome', -⟩ | ⟨part, halternative, -, hpart, hprints, hpartApart, hwalk⟩
    · rw [hsome] at hsome'
      cases hsome'
    · rw [hwalk, hkind, halternative, hprints.fallback hpart _ (opened.print body) hpartApart, hblock,
        hguardBlock, ← Code.print_cons, Code.closeOwned_of_not_mem (code.print _) hforeign]
      simp

/-- A branch that is generated apart, if its code is what its statements are printed as. -/
theorem spliceBranch_print {branch : Option (Position × Node)}
    (h : ∀ part, branch = some part → ∀ seed, (emit read identify part.2 part.1).run seed =
      Statement.printAll 0 seed (part.2.statements read false)) (code : Code ι) :
    spliceBranch (branch.map fun part => emit read identify part.2 part.1) code =
      code.print (Statement.ofBranch (branch.map fun part => part.2.statements read false)) := by
  cases branch with
  | none => rfl
  | some part =>
    have hsplice : spliceBranch (some (emit read identify part.2 part.1)) code =
        code.splice ((emit read identify part.2 part.1).run code.counter) := rfl
    rw [Option.map_some, Option.map_some, hsplice, h part rfl, Code.splice_print]
    rfl

/-- **An await block** prints a block for what is tried and one for what is caught. -/
theorem emit_awaitBlock (hreg : node.RegularAt) (hkind : node.kind = .awaitBlock)
    (ih : ∀ visit ∈ visits node (node.parts here), Prints read identify visit.2.1 visit.2.2)
    (parent : Option (Parent ι)) {code : Code ι} (hapart : node.Apart identify here code.frames) :
    emit read identify node here parent code = code.print (node.statements read false) := by
  have hrun : ∀ visit ∈ visits node (node.parts here), ∀ seed,
      (emit read identify visit.2.2 visit.2.1).run seed =
        Statement.printAll 0 seed (visit.2.2.statements read false) := by
    intro visit hvisit seed
    -- a run of its own sees no parent, and so no chain that it could go on with
    have hne := hreg.kind_ne hvisit (by simp [Node.takesAlternative, hkind])
    have hstart : visit.2.2.Apart identify visit.2.1 (Code.start seed : Code ι).frames :=
      hapart.part (snd_mem_of_mem_visits hvisit) (by simp [Code.start])
    unfold Emission.run
    rw [(ih visit hvisit).apart hne none (Code.start seed) (fun _ => rfl) hstart,
      Code.fragment_start_print]
  rw [visits_await hkind] at hrun
  have hpending := @spliceBranch_print _ _ read identify (firstIn .pending (node.parts here))
    fun part hpart => hrun (.pending, part) (by simp [branches, hpart])
  have hthen := @spliceBranch_print _ _ read identify (firstIn .thenBranch (node.parts here))
    fun part hpart => hrun (.thenBranch, part) (by simp [branches, hpart])
  have hcatch := @spliceBranch_print _ _ read identify (catchBranch node (node.parts here))
    fun part hpart => hrun (.catchBranch, part) (by simp [branches, hpart])
  rw [emit_await read identify here hkind, Node.statements_awaitBlock read here hkind]
  have hblock : awaitBlock read node
      (mapBelow (fun part => emit read identify part.2 part.1) (node.parts here)) code =
        code.print (node.awaitStatements read
          (mapBelow (fun part => part.2.statements read false) (node.parts here))) := by
    unfold awaitBlock awaitSteps Node.awaitStatements
    rw [firstIn_mapBelow, firstIn_mapBelow, catchBranch_mapBelow, firstIn_mapBelow, firstIn_mapBelow,
      catchBranch_mapBelow, List.foldl_append]
    simp only [List.foldl_cons, List.foldl_nil, AwaitStep.run, Code.apply]
    rw [hpending, Code.append_eq_print, hthen, ← Code.print_append,
      ← Code.print_append, Code.print_cons, ← Code.openBlock_print "try" none, List.append_assoc]
    cases hbranch : catchBranch node (node.parts here) with
    | none => exact Code.append_eq_print "catch \x7b\x7d" _
    | some part =>
      rw [hbranch] at hcatch
      rw [Option.map_some, Option.map_some, ← Code.openBlock_print (catchHeader read node) none]
      exact congrArg Code.closeInnermost (hcatch (Code.openBlock (catchHeader read node) none _))
  rw [hblock]
  exact Code.closeOwned_of_not_mem (code.print _) hapart.here_foreign

/-- Reads that are declared one by one. -/
theorem applyAll_read (texts : List String) (code : Code ι) :
    code.applyAll (texts.map .declare) = code.print (texts.map .read) := by
  induction texts generalizing code with
  | nil => rfl
  | cons text texts ih =>
    rw [List.map_cons, List.map_cons, Code.applyAll_cons, Code.print_cons, ih]
    exact congrArg (Code.print _) (Code.declare_eq_print text code)

/-- **Entering a plain node**: it writes its statements, and it may open one block. -/
theorem opening_plain (h : node.isPlain = true) (owner : ι) (parent : Option Kind) (chained : Bool)
    (code : Code ι) :
    (code.applyAll (opening read node owner parent chained) = code.print (node.ownStatements read) ∧
        ∀ content, node.enclose read content = content) ∨
      ((code.applyAll (opening read node owner parent chained)).frames = some owner :: code.frames ∧
        ∀ content,
          ((code.applyAll (opening read node owner parent chained)).print content).closeInnermost =
            code.print (node.ownStatements read ++ node.enclose read content)) := by
  have hscope : ∀ code : Code ι,
      (code.applyAll (bindingScope read node owner) = code ∧
          ∀ content, node.inScope read content = content) ∨
        ((code.applyAll (bindingScope read node owner)).frames = some owner :: code.frames ∧
          ∀ content, ((code.applyAll (bindingScope read node owner)).print content).closeInnermost =
            code.print (node.inScope read content)) := by
    intro code
    unfold bindingScope Node.inScope
    cases node.boundNames read with
    | nil => exact Or.inl ⟨rfl, fun content => rfl⟩
    | cons name names =>
      exact Or.inr ⟨Code.openScope_frames .., fun content => Code.openScope_print ..⟩
  unfold Node.isPlain at h
  -- apart from scopes and key blocks there is nothing around the content
  unfold opening Node.ownStatements Node.enclose
  cases hkind : node.kind with
  | ifBlock => simp [hkind] at h
  | elseBlock => simp [hkind] at h
  | eachBlock => simp [hkind] at h
  | awaitBlock => simp [hkind] at h
  | slotTemplate => exact hscope code
  | element =>
    dsimp only
    split
    · exact hscope code
    · exact Or.inl ⟨rfl, fun content => rfl⟩
  | inlineComponent =>
    have hline := Code.append_eq_print ("new " ++ node.component read ++ "();") code
    dsimp only
    rw [Code.applyAll_cons, Code.apply, hline]
    rcases hscope (code.print [.line ("new " ++ node.component read ++ "();")]) with
      hnone | ⟨hframes, hclose⟩
    · exact Or.inl hnone
    · refine Or.inr ⟨hframes, fun content => ?_⟩
      rw [hclose, Code.print_append]
  | keyBlock => exact Or.inr ⟨Code.openBlock_frames .., fun content => Code.openBlock_print ..⟩
  | spread =>
    dsimp only
    split
    · exact Or.inl ⟨rfl, fun content => rfl⟩
    · exact Or.inl ⟨Code.declare_eq_print ("\x7b ..." ++ node.expression read ++ " \x7d") code,
        fun content => rfl⟩
  | debugTag =>
    have hreads := applyAll_read ((node.nodesIn .identifiers).map Node.label) code
    rw [List.map_map, List.map_map] at hreads
    exact Or.inl ⟨hreads, fun content => rfl⟩
  | mustacheTag => exact Or.inl ⟨Code.declare_eq_print _ code, fun content => rfl⟩
  | rawMustacheTag => exact Or.inl ⟨Code.declare_eq_print _ code, fun content => rfl⟩
  | attributeShorthand => exact Or.inl ⟨Code.declare_eq_print _ code, fun content => rfl⟩
  | binding => exact Or.inl ⟨Code.declare_eq_print _ code, fun content => rfl⟩
  | eventHandler => exact Or.inl ⟨Code.declare_eq_print _ code, fun content => rfl⟩
  | classDirective => exact Or.inl ⟨Code.declare_eq_print _ code, fun content => rfl⟩
  | action => exact Or.inl ⟨Code.append_eq_print _ code, fun content => rfl⟩
  | transition => exact Or.inl ⟨Code.append_eq_print _ code, fun content => rfl⟩
  | animation => exact Or.inl ⟨Code.append_eq_print _ code, fun content => rfl⟩
  | _ => exact Or.inl ⟨rfl, fun content => rfl⟩

/-- **A plain node** prints its statements, and its content inside the block it may open. -/
theorem emit_plain (hreg : node.RegularAt) (hplain : node.isPlain = true)
    (ih : ∀ visit ∈ walked (node.parts here), Prints read identify visit.2.1 visit.2.2)
    (parent : Option (Parent ι)) {code : Code ι} (hapart : node.Apart identify here code.frames) :
    emit read identify node here parent code = code.print (node.statements read false) := by
  have hkind := hplain
  simp only [Node.isPlain, Bool.and_eq_true, decide_eq_true_eq] at hkind
  obtain ⟨⟨⟨hif, helse⟩, heach⟩, hawait⟩ := hkind
  have htakes : node.takesAlternative = false := by simp [Node.takesAlternative, hif, heach]
  rw [emit_walk read identify here hawait, Node.statements_plain read here hplain]
  rcases opening_plain hplain (identify here) (parent.map Parent.kind) (isChained parent code) code with
    ⟨hopening, henclose⟩ | ⟨hframes, hclose⟩
  · have hwalk := walk_print hreg hawait htakes ih hapart (code.print (node.ownStatements read))
      (fun frame h => Or.inr h) (Or.inl helse)
    rw [hopening, hwalk, henclose, ← Code.print_append]
    exact Code.closeOwned_of_not_mem (code.print _) hapart.here_foreign
  · rw [walk_enclosed hreg hawait htakes ih hapart hframes fun frame h => h, hclose]

end

/-! ## Whole trees -/

/-- **Every node of a regular tree** comes to the statements it has. -/
theorem prints (read : Reading) (identify : Position → ι) (here : Position) (root : Node)
    (hreg : ∀ node ∈ root.visited, node.RegularAt) : Prints read identify here root := by
  induction here, root using Node.located_induction with
  | step here node ih =>
    obtain ⟨hhere, hbelow⟩ := Node.regularAt_visited hreg here
    have hprints : ∀ visit ∈ visits node (node.parts here),
        Prints read identify visit.2.1 visit.2.2 :=
      fun visit hvisit => ih visit.2 (snd_mem_of_mem_visits hvisit) (hbelow visit hvisit)
    by_cases hawait : node.kind = .awaitBlock
    · refine ⟨?_, ?_, ?_, ?_⟩
      · exact fun _ parent code _ hapart => emit_awaitBlock hhere hawait hprints parent hapart
      · exact fun hkind => absurd (hawait.symm.trans hkind) (by decide)
      · exact fun hkind => absurd (hawait.symm.trans hkind) (by decide)
      · exact fun hkind => absurd (hawait.symm.trans hkind) (by decide)
    rw [visits_walk hawait] at hprints
    refine ⟨?_, ?_, ?_, ?_⟩
    · intro helse parent code hchained hapart
      by_cases hif : node.kind = .ifBlock
      · rw [emit_ifBlock hhere hif hprints parent hapart, hchained hif]
        rfl
      by_cases heach : node.kind = .eachBlock
      · exact emit_eachBlock hhere heach hprints parent hapart
      · have hplain : node.isPlain = true := by simp [Node.isPlain, hif, helse, heach, hawait]
        exact emit_plain hhere hplain hprints parent hapart
    · intro hif parent code hchained hapart
      rw [emit_ifBlock hhere hif hprints parent hapart, hchained]
      rfl
    · exact fun helse owner code hapart => emit_alternative hhere helse hprints owner hapart
    · exact fun helse owner code hapart => emit_fallback hhere helse hprints owner hapart

/-! ## Chains of conditions -/

/-- The condition that a condition goes on with, if it is all that the alternative holds. -/
def Node.nextCondition? (node : Node) : Option Node :=
  match node.child? .elseBranch with
  | some alternative => if alternative.holdsOnlyIf then alternative.children.head? else none
  | none => none

theorem Node.nextCondition?_of_alternative {node alternative : Node} {field : Field}
    (hfield : node.field? .elseBranch = some field) (hnodes : field.nodes = [alternative]) :
    node.nextCondition? =
      if alternative.holdsOnlyIf then alternative.children.head? else none := by
  unfold nextCondition? child? nodesIn
  rw [hfield]
  dsimp only
  rw [hnodes]
  rfl

/-- **One clause of a chain**: what comes after it is nothing, a last block, or the clauses of the next
condition. -/
theorem Node.condition_cases (read : Reading) {node : Node} (hkind : node.kind = .ifBlock)
    (hreg : ∀ part ∈ node.visited, part.RegularAt) (continues : Bool) :
    ∃ body rest, node.statements read continues = .block (node.ifHeader read continues) body :: rest ∧
      ((node.nextCondition? = none ∧ node.field? .elseBranch = none ∧ rest = []) ∨
        (node.nextCondition? = none ∧ (node.field? .elseBranch).isSome = true ∧
          ∃ body', rest = [.block "else" body']) ∨
        ∃ next, node.nextCondition? = some next ∧ next.kind = .ifBlock ∧
          (∀ part ∈ next.visited, part.RegularAt) ∧ rest = next.statements read true) := by
  have htakes : node.takesAlternative = true := by simp [takesAlternative, hkind]
  obtain ⟨hhere, hbelow⟩ := regularAt_visited hreg []
  rw [visits_walk (by simp [hkind])] at hbelow
  refine ⟨_, _, statements_ifBlock read [] hkind continues, ?_⟩
  rcases hhere.alternative_cases htakes [] with
    ⟨hslots, hnone⟩ | ⟨others, part, hwalked, hslots, hpart, field, hfield, hnodes⟩
  · refine Or.inl ⟨?_, hnone, ?_⟩
    · simp [nextCondition?, child?, nodesIn, hnone]
    · rw [(filter_alternative hslots).2, List.flatMap_nil]
  · have hmem : (Slot.elseBranch, part) ∈ walked (node.parts []) :=
      hwalked ▸ List.mem_append_right _ List.mem_cons_self
    have hrest : ((walked (node.parts [])).filter fun visit => visit.1 = .elseBranch).flatMap
        (fun visit => visit.2.2.statements read true) = part.2.statements read true := by
      rw [hwalked, List.filter_append, (filter_alternative hslots).2]
      simp
    rw [hrest, nextCondition?_of_alternative hfield hnodes, statements_elseBlock read [] hpart,
      Bool.true_and]
    obtain ⟨hpartHere, hpartBelow⟩ := regularAt_visited (hbelow _ hmem) []
    rw [visits_walk (by simp [hpart])] at hpartBelow
    by_cases hfold : part.2.holdsOnlyIf
    · obtain ⟨only, hwalked', hchildren, hnext⟩ := hpartHere.walked_only hpart hfold []
      refine Or.inr (Or.inr ⟨only.2, ?_, hnext, ?_, ?_⟩)
      · rw [if_pos hfold, hchildren]
        rfl
      · exact hpartBelow (.children, only) (hwalked' ▸ List.mem_cons_self)
      · rw [if_pos hfold, hwalked']
        simp
    · exact Or.inr (Or.inl ⟨if_neg hfold, by rw [hfield]; rfl, _, if_neg hfold⟩)

/-- **A chain of any length is flat**: its statements are one block per condition, and a last one if
there is an alternative without a condition. -/
theorem Node.statements_chain (read : Reading) {node last : Node} {chain : List Node}
    (hkind : node.kind = .ifBlock) (hreg : ∀ part ∈ node.visited, part.RegularAt)
    (hchain : List.IsChain (fun node next => node.nextCondition? = some next) (node :: chain))
    (hlast : (node :: chain).getLast? = some last) (hend : last.nextCondition? = none)
    (continues : Bool) :
    ∃ blocks : List (String × List Statement),
      node.statements read continues = blocks.map (fun clause => .block clause.1 clause.2) ∧
      blocks.map Prod.fst =
        (node.ifHeader read continues :: chain.map fun next => next.ifHeader read true) ++
          if (last.field? .elseBranch).isSome then ["else"] else [] := by
  induction chain generalizing node continues with
  | nil =>
    obtain rfl : node = last := by simpa using hlast
    obtain ⟨body, rest, hstatements, hcases⟩ := condition_cases read hkind hreg continues
    rcases hcases with ⟨-, hnone, rfl⟩ | ⟨-, hsome, body', rfl⟩ | ⟨next, hnext, -⟩
    · exact ⟨[(node.ifHeader read continues, body)], hstatements, by simp [hnone]⟩
    · exact ⟨[(node.ifHeader read continues, body), ("else", body')], hstatements, by simp [hsome]⟩
    · rw [hend] at hnext
      cases hnext
  | cons next chain ih =>
    obtain ⟨hnext, hchain⟩ := List.isChain_cons_cons.1 hchain
    obtain ⟨body, rest, hstatements, hcases⟩ := condition_cases read hkind hreg continues
    rcases hcases with ⟨hnone, -⟩ | ⟨hnone, -⟩ | ⟨next', hnext', hkind', hreg', rfl⟩
    · rw [hnone] at hnext
      cases hnext
    · rw [hnone] at hnext
      cases hnext
    · obtain rfl : next' = next := Option.some.inj (hnext'.symm.trans hnext)
      rw [List.getLast?_cons_cons] at hlast
      obtain ⟨blocks, hblocks, hheaders⟩ := ih hkind' hreg' hchain hlast true
      refine ⟨(node.ifHeader read continues, body) :: blocks, ?_, ?_⟩
      · rw [hstatements, hblocks, List.map_cons]
      · rw [List.map_cons, hheaders]
        rfl

theorem fragment_of_regular (source : String) {root : Node} (h : root.Regular) (seed : UInt64) :
    root.fragment source seed =
      Statement.printAll 0 seed (root.statements (Span.readIn source) false) := by
  have hprints := prints (Span.readIn source) id [] root h.regularAt
  unfold Node.fragment Emission.run
  rw [hprints.apart h.root_kind none (Code.start seed) (fun _ => rfl) (Node.Apart.of_id root []),
    Code.fragment_start_print]

/-- The last condition of a chain, with a loop that has an alternative inside it and an await block in
the alternative after it. -/
def lastCondition : Node :=
  { kind := .ifBlock
    fields := [.one .expression { kind := .text, span := ⟨1, 2⟩ },
      .many .children [
        { kind := .eachBlock
          fields := [.one .expression { kind := .text, span := ⟨0, 1⟩ },
            .one .context { kind := .text, span := ⟨2, 3⟩ },
            .many .children [{ kind := .mustacheTag
                               fields := [.one .expression { kind := .text, span := ⟨2, 3⟩ }] }],
            .one .elseBranch { kind := .elseBlock, fields := [.many .children []] }] }],
      .one .elseBranch
        { kind := .elseBlock
          fields := [.many .children [{ kind := .text }, { kind := .awaitBlock }]] }] }

def firstCondition : Node :=
  { kind := .ifBlock
    fields := [.one .expression { kind := .text, span := ⟨0, 1⟩ },
      .many .children [{ kind := .keyBlock }],
      .one .elseBranch { kind := .elseBlock, fields := [.many .children [lastCondition]] }] }

end TemplateCode
