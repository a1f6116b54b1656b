import TemplateCode.Proofs.Names
import TemplateCode.Proofs.Owners

/-!
# Generating apart and in place

A branch of an await block is generated by a run of its own and spliced in. Walking the branch where
it stands would give the same code, as long as nothing in it closes a block that it did not open.

* `Code.within`: code that was written apart, put on top of code that was there before.
* `closesOpen`: no block is closed that is not there.
* `script_within`: the operations of a tree do not depend on what is below.
* `splice_eq_emit`: splicing a run of its own in is walking the tree in place.
* `Encloses`: branches of branches, with the number of blocks around them.
* `splice_fragment`: what splicing a branch in does.
-/

namespace TemplateCode

variable {ι : Type}

namespace Line

theorem nest_zero (line : Line) : line.nest 0 = line := by
  simp [nest]

theorem nest_nest (level inner : Nat) (line : Line) :
    (line.nest inner).nest level = line.nest (inner + level) := by
  simp only [nest]
  congr 1
  omega

theorem render_nest (level : Nat) (line : Line) :
    (line.nest level).render = indentation level ++ line.render := by
  unfold render nest indentation
  rw [Nat.mul_add, List.replicate_add, String.ofList_append, String.append_assoc]

end Line

namespace Code

/-- Code that was written apart, as if it had been written on top of `base`. -/
def within (code base : Code ι) : Code ι where
  written := code.written.map (Line.nest base.level) ++ base.written
  frames := code.frames ++ base.frames
  counter := code.counter

theorem start_within (base : Code ι) : (start base.counter).within base = base := rfl

theorem level_within (code base : Code ι) : (code.within base).level = code.level + base.level :=
  List.length_append

theorem write_within (role : Role) (text : String) (code base : Code ι) :
    (code.within base).write role text = (code.write role text).within base := by
  unfold write
  split
  · rfl
  · rw [level_within, Nat.add_comm]
    rfl

theorem declare_within (initializer : String) (code base : Code ι) :
    (code.within base).declare initializer = (code.declare initializer).within base := by
  unfold declare
  split
  · rfl
  · exact write_within _ _ code.count base

theorem openWith_within (role : Role) (header : String) (owner : Option ι) (code base : Code ι) :
    (code.within base).openWith role header owner = (code.openWith role header owner).within base := by
  unfold openWith
  rw [write_within]
  rfl

theorem closeInnermost_within {code : Code ι} (h : code.frames ≠ []) (base : Code ι) :
    (code.within base).closeInnermost = code.closeInnermost.within base := by
  unfold closeInnermost
  cases hframes : code.frames with
  | nil => exact (h hframes).elim
  | cons frame outer =>
    have hwithin : (code.within base).frames = frame :: (outer ++ base.frames) := by
      simp [within, hframes]
    rw [hwithin]
    exact write_within .closer "\x7d" { code with frames := outer } base

theorem foldl_closeInnermost_within {closed : List (Option ι)} {code : Code ι}
    (h : closed.length ≤ code.frames.length) (base : Code ι) :
    closed.foldl (fun code _ => code.closeInnermost) (code.within base) =
      (closed.foldl (fun code _ => code.closeInnermost) code).within base := by
  induction closed generalizing code with
  | nil => rfl
  | cons frame closed ih =>
    rw [List.length_cons] at h
    have hne : code.frames ≠ [] := by
      intro hnil
      rw [hnil, List.length_nil] at h
      omega
    rw [List.foldl_cons, List.foldl_cons, closeInnermost_within hne, ih]
    rw [closeInnermost_frames, List.length_tail]
    omega

theorem splice_within (fragment : Fragment) (code base : Code ι) :
    (code.within base).splice fragment = (code.splice fragment).within base := by
  unfold splice
  rw [level_within]
  simp [within, level, Function.comp_def, Line.nest_nest]

variable [DecidableEq ι]

theorem closeOwned_within {owner : ι} {base : Code ι} (howner : some owner ∉ base.frames)
    (code : Code ι) : (code.within base).closeOwned owner = (code.closeOwned owner).within base := by
  -- none of the blocks below belongs to the owner, so the same blocks are closed
  have hclosed : ((code.within base).frames.takeWhile fun frame => decide (frame = some owner)) =
      code.frames.takeWhile fun frame => decide (frame = some owner) := by
    unfold within
    dsimp only
    rw [List.takeWhile_append, takeWhile_of_not_mem howner]
    split
    · rename_i hall
      rw [List.append_nil, (List.takeWhile_prefix _).eq_of_length hall]
    · rfl
  unfold closeOwned
  rw [hclosed]
  exact foldl_closeInnermost_within (List.takeWhile_prefix _).length_le base

theorem owns_within {owner : ι} {base : Code ι} (howner : some owner ∉ base.frames)
    (code : Code ι) : (code.within base).owns owner = code.owns owner := by
  have hbase := owns_of_not_mem howner
  unfold owns at hbase ⊢
  unfold within
  rw [List.any_append, hbase, Bool.or_false]

end Code

variable [DecidableEq ι]

/-! ## Closing what is open -/

/-- Whether an operation closes a block, whoever owns it. -/
def Edit.closesAny : Edit ι → Bool
  | .close none => true
  | .close (some _) | .append _ | .declare _ | .openBlock _ _ | .openScope _ _ | .splice _ => false

/-- Whether there is a block to close whenever an operation closes one, whoever owns it. -/
def closesOpen (frames : List (Option ι)) : List (Edit ι) → Bool
  | [] => true
  | edit :: edits => !(edit.closesAny && frames.isEmpty) && closesOpen (edit.onFrames frames) edits

theorem closesOpen_append (frames : List (Option ι)) (edits more : List (Edit ι)) :
    closesOpen frames (edits ++ more) =
      (closesOpen frames edits && closesOpen (edits.foldl Edit.onFrames frames) more) := by
  induction edits generalizing frames with
  | nil => rfl
  | cons edit edits ih =>
    rw [List.cons_append, closesOpen, closesOpen, ih, List.foldl_cons, Bool.and_assoc]

/-- What is known of the operations that do not reach `base` if they are carried out on top of it. -/
structure StaysAbove (base : Code ι) (code : Code ι) (edits : List (Edit ι)) : Prop where
  owners : OwnersIn { o | some o ∉ base.frames } code edits
  closes : closesOpen code.frames edits = true

namespace StaysAbove

variable {base code : Code ι} {edit : Edit ι} {edits more : List (Edit ι)}

theorem split (h : StaysAbove base code (edits ++ more)) :
    StaysAbove base code edits ∧ StaysAbove base (code.applyAll edits) more := by
  obtain ⟨howners, howners'⟩ := h.owners.split
  have hcloses := h.closes
  rw [closesOpen_append, Bool.and_eq_true, ← Code.applyAll_frames] at hcloses
  exact ⟨⟨howners, hcloses.1⟩, ⟨howners', hcloses.2⟩⟩

theorem apply_within (h : StaysAbove base code [edit]) :
    (code.within base).apply edit = (code.apply edit).within base := by
  cases edit with
  | append text => exact Code.write_within .plain text code base
  | declare initializer => exact Code.declare_within initializer code base
  | openBlock header owner => exact Code.openWith_within .opener header owner code base
  | openScope params owner => exact Code.openWith_within .scope _ owner code.count base
  | close owner =>
    cases owner with
    | none =>
      have hcloses := h.closes
      simp only [closesOpen, Edit.closesAny, Bool.true_and, Bool.and_true, Bool.not_eq_true',
        List.isEmpty_eq_false_iff] at hcloses
      exact Code.closeInnermost_within hcloses base
    | some owner =>
      exact Code.closeOwned_within (h.owners.2 _ List.mem_cons_self owner rfl) code
  | splice fragment => exact Code.splice_within fragment code base

theorem applyAll_within (h : StaysAbove base code edits) :
    (code.within base).applyAll edits = (code.applyAll edits).within base := by
  induction edits generalizing code with
  | nil => rfl
  | cons edit edits ih =>
    have hcons : StaysAbove base code ([edit] ++ edits) := h
    obtain ⟨hedit, hedits⟩ := hcons.split
    rw [Code.applyAll_cons, Code.applyAll_cons, hedit.apply_within]
    exact ih hedits

end StaysAbove

/-! ## Whole trees -/

theorem isChained_within {base : Code ι} {parent : Option (Parent ι)}
    (hparent : ∀ q, parent = some q → some q.owner ∉ base.frames) (code : Code ι) :
    isChained parent (code.within base) = isChained parent code := by
  cases parent with
  | none => rfl
  | some q =>
    unfold isChained
    dsimp only
    rw [Code.owns_within (hparent q rfl)]

/-- **The operations of a tree do not depend on what is below**, as long as they do not reach it. -/
theorem script_within (read : Reading) (identify : Position → ι) (root : Node) (here : Position)
    {base : Code ι} (hroot : ∀ p ∈ root.positions here, some (identify p) ∉ base.frames)
    (parent : Option (Parent ι)) (hparent : ∀ q, parent = some q → some q.owner ∉ base.frames)
    (code : Code ι) (habove : StaysAbove base code (script read identify root here parent code)) :
    script read identify root here parent (code.within base) =
      script read identify root here parent code := by
  induction here, root using Node.located_induction generalizing parent code with
  | step here node ih =>
    rw [script_eq] at habove ⊢
    refine (Code.sequence_map (fun code => code.within base) id StaysAbove.split
      (fun h => by rw [List.map_id]; exact h.applyAll_within) ?_ habove).trans (List.map_id _)
    simp only [List.map_id]
    refine List.rel_append ?_ (.cons (fun _ _ => rfl) .nil)
    unfold nodeSteps
    split
    · -- the steps of an await block look at the counter alone
      rw [List.forall₂_same]
      intro step hstep code _
      obtain ⟨awaitStep, -, rfl⟩ := List.mem_map.1 hstep
      rcases awaitStep with operation | (_ | script) <;> rfl
    · rw [walked_mapBelow, List.map_map]
      refine .cons ?_ ?_
      · intro code _
        dsimp only
        rw [isChained_within hparent]
      · rw [List.forall₂_map_left_iff, List.forall₂_map_right_iff, List.forall₂_same]
        intro visit hvisit code hcode
        have hmem := snd_mem_of_mem_walked hvisit
        exact ih visit.2 hmem (fun p hp => hroot p (Node.positions_of_held hmem hp))
          (some ⟨node.kind, identify here⟩)
          (fun q hq => by cases hq; exact hroot here (node.here_mem_positions here)) code hcode

theorem closesOpen_rename {κ : Type} [DecidableEq κ] {f : ι → κ} {S : Set ι} (hf : Set.InjOn f S)
    {code : Code ι} {edits : List (Edit ι)} (h : OwnersIn S code edits) :
    closesOpen (code.rename f).frames (edits.map (Edit.rename f)) = closesOpen code.frames edits := by
  induction edits generalizing code with
  | nil => rfl
  | cons edit edits ih =>
    have hany : (edit.rename f).closesAny = edit.closesAny := by
      cases edit with
      | close owner => cases owner <;> rfl
      | _ => rfl
    have hempty : (code.rename f).frames.isEmpty = code.frames.isEmpty := List.isEmpty_map
    have hframes : (edit.rename f).onFrames (code.rename f).frames =
        ((code.apply edit).rename f).frames := by
      rw [← Code.apply_frames, Code.apply_rename hf h.1 (h.2 edit List.mem_cons_self)]
    rw [List.map_cons, closesOpen, closesOpen, hany, hempty, hframes, ih h.apply, Code.apply_frames]

omit [DecidableEq ι] in
/-- Splicing in a run of its own, of which no line is empty and no block is left open, puts it on top
of what was there. -/
theorem Code.splice_eq_within {code final : Code ι} (hframes : final.frames = [])
    (hnested : Nested 0 final.lines 0) (hcounter : code.counter ≤ final.counter) :
    code.splice final.fragment = final.within code := by
  have hmax : max code.counter final.counter = final.counter := if_pos hcounter
  unfold splice within fragment
  dsimp only
  rw [hnested.filter_eq, hmax, hframes, ← List.map_reverse, lines, List.reverse_reverse,
    List.nil_append]

/-- **Generating in place**: what a tree does on top of other code is what it does in a run of its own,
put on top of that code. -/
theorem emit_eq_within (read : Reading) {identify : Position → ι} {root : Node} {here : Position}
    {code : Code ι} (hapart : root.Apart identify here code.frames)
    (hcloses : closesOpen [] (script read id root [] none (Code.start code.counter)) = true) :
    emit read identify root here none code =
      (emit read identify root here none (Code.start code.counter)).within code := by
  have hid : OwnersIn { p | p ∈ root.positions [] } (Code.start code.counter)
      (script read id root [] none (Code.start code.counter)) :=
    ownersIn_script (fun p hp => hp) (by simp [Code.start]) none
  -- whether blocks are closed that are not there does not depend on who owns them
  have hcloses' : closesOpen (Code.start code.counter : Code ι).frames
      (script read identify root here none (Code.start code.counter)) = true := by
    rw [script_start read hapart.injective, ← hcloses]
    exact closesOpen_rename (Node.injOn_append hapart.injective) hid
  have habove : StaysAbove code (Code.start code.counter)
      (script read identify root here none (Code.start code.counter)) :=
    ⟨ownersIn_script hapart.foreign (by simp [Code.start]) none, hcloses'⟩
  have hscript := script_within read identify root here hapart.foreign none (by simp) _ habove
  rw [Code.start_within] at hscript
  rw [emit_eq_applyAll, emit_eq_applyAll, hscript, ← habove.applyAll_within, Code.start_within]

/-! ## Nesting to any depth -/

namespace Code

/-- Nothing that is written is ever taken back. -/
theorem lines_prefix_apply (code : Code ι) (edit : Edit ι) :
    code.lines <+: (code.apply edit).lines := by
  by_cases hsplice : ∃ fragment, edit = .splice fragment
  · obtain ⟨fragment, rfl⟩ := hsplice
    exact ⟨_, (lines_splice fragment code).symm⟩
  · obtain ⟨lines, hlines, -⟩ := code.extends_apply edit fun fragment h => (hsplice ⟨fragment, h⟩).elim
    exact ⟨lines, hlines.symm⟩

theorem lines_prefix_applyAll (code : Code ι) (edits : List (Edit ι)) :
    code.lines <+: (code.applyAll edits).lines := by
  refine List.foldlRecOn (motive := fun code' : Code ι => code.lines <+: code'.lines) _ _
    List.prefix_rfl ?_
  exact fun code' h edit _ => h.trans (lines_prefix_apply code' edit)

end Code

/-- The run of a tree splices in the code of a branch, names counted from `seed'`, while `level` blocks
are open. -/
def Splices (source : String) (root : Node) (seed : UInt64) (level : Nat) (branch : Node)
    (seed' : UInt64) : Prop :=
  ∃ edits more, script (Span.readIn source) id root [] none (Code.start seed) =
      edits ++ .splice (branch.fragment source seed') :: more ∧
    ((Code.start seed).applyAll edits).level = level

/-- The code of a part is spliced into the code of a tree through any number of branches of branches,
and `depth` is the number of blocks that are open around it in all of them together. -/
inductive Encloses (source : String) : Node → UInt64 → Nat → Node → UInt64 → Prop
  | self (root : Node) (seed : UInt64) : Encloses source root seed 0 root seed
  | branch {root mid part : Node} {seed seed' seed'' : UInt64} {level depth : Nat}
      (h : Splices source root seed level mid seed')
      (h' : Encloses source mid seed' depth part seed'') :
      Encloses source root seed (level + depth) part seed''

theorem Splices.lines_eq {source : String} {root branch : Node} {seed seed' : UInt64} {level : Nat}
    (h : Splices source root seed level branch seed') :
    ∃ before after, (root.fragment source seed).lines =
      before ++ (branch.fragment source seed').lines.map (Line.nest level) ++ after := by
  obtain ⟨edits, more, hscript, rfl⟩ := h
  have hroot : (root.fragment source seed).lines =
      ((((Code.start seed).applyAll edits).splice
        (branch.fragment source seed')).applyAll more).lines := by
    have hrun := emit_eq_applyAll (Span.readIn source) id root [] none (Code.start seed)
    rw [hscript, Code.applyAll_append] at hrun
    exact congrArg Code.lines hrun
  obtain ⟨after, hafter⟩ := Code.lines_prefix_applyAll
    (((Code.start seed).applyAll edits).splice (branch.fragment source seed')) more
  rw [hroot, ← hafter, Code.lines_splice, (nested_fragment source branch seed').filter_eq]
  exact ⟨_, _, rfl⟩

theorem run_script (source : String) (root : Node) (here : Position) (seed : UInt64) :
    (script (Span.readIn source) id root here).run seed = root.fragment source seed := by
  have hrun : (emit (Span.readIn source) id root here).run seed = root.fragment source seed :=
    run_emit (Span.readIn source) (Set.injOn_id _) seed
  unfold Emission.run at hrun
  rw [emit_eq_applyAll] at hrun
  exact hrun

theorem spliceStep_frames (branch : Option (Script ι)) (code : Code ι) :
    (code.applyAll (spliceStep branch code)).frames = code.frames := by
  cases branch <;> rfl

/-- The branches of an await block are spliced in with one block open, the `try` or the `catch`. -/
theorem splices_branch (source : String) {node : Node} (hkind : node.kind = .awaitBlock)
    (seed : UInt64) {visit : Slot × Position × Node} (h : visit ∈ branches node (node.parts [])) :
    ∃ seed', Splices source node seed 1 visit.2.2 seed' := by
  -- the steps before the branch leave the `try` or the `catch` open and nothing else
  obtain ⟨before, after, hsteps, hlevel⟩ : ∃ before after,
      (awaitSteps (Span.readIn source) node (mapBelow (fun part =>
          script (Span.readIn source) id part.2 part.1) (node.parts []))).map AwaitStep.script =
        before ++ spliceStep (some (script (Span.readIn source) id visit.2.2 visit.2.1)) :: after ∧
      ((Code.start seed).applyAll (Code.sequence before (Code.start seed))).level = 1 := by
    unfold branches at h
    simp only [List.mem_append, Option.mem_toList, Option.map_eq_some_iff] at h
    unfold awaitSteps
    rw [firstIn_mapBelow, firstIn_mapBelow, catchBranch_mapBelow]
    rcases h with (⟨part, hpart, rfl⟩ | ⟨part, hpart, rfl⟩) | ⟨part, hpart, rfl⟩
    · rw [hpart]
      exact ⟨[_], _, rfl, rfl⟩
    · rw [hpart]
      refine ⟨[_, _, _], _, rfl, ?_⟩
      simp [AwaitStep.script, Code.sequence, Code.level, Code.apply_frames, Edit.onFrames,
        spliceStep_frames, Code.start]
    · rw [hpart]
      refine ⟨[_, _, _, _, _, _], _, rfl, ?_⟩
      simp [AwaitStep.script, Code.sequence, Code.level, Code.apply_frames, Edit.onFrames,
        spliceStep_frames, Code.start]
  have hscript : script (Span.readIn source) id node [] none (Code.start seed) =
      Code.sequence (before ++ spliceStep (some (script (Span.readIn source) id visit.2.2 visit.2.1)) ::
        (after ++ [fun _ => [.close (some [])]])) (Code.start seed) := by
    rw [script_eq]
    unfold scriptNode nodeSteps
    rw [if_pos hkind, hsteps, List.append_assoc]
    rfl
  rw [Code.sequence_append, Code.sequence, spliceStep, run_script] at hscript
  exact ⟨_, _, _, hscript, hlevel⟩

/-- Each of the branches of an await block is enclosed by one more block than the await block. -/
theorem Encloses.await {source : String} {root part : Node} {seed seed' : UInt64} {depth : Nat}
    (h : Encloses source root seed depth part seed') (hkind : part.kind = .awaitBlock)
    {visit : Slot × Position × Node} (hvisit : visit ∈ branches part (part.parts [])) :
    ∃ seed'', Encloses source root seed (depth + 1) visit.2.2 seed'' := by
  induction h with
  | self root seed =>
    obtain ⟨seed'', hsplices⟩ := splices_branch source hkind seed hvisit
    have hencloses := Encloses.branch hsplices (.self _ _)
    exact ⟨seed'', hencloses⟩
  | branch h _ ih =>
    obtain ⟨seed'', hencloses⟩ := ih hkind hvisit
    have hencloses' := Encloses.branch h hencloses
    exact ⟨seed'', hencloses'⟩

/-- **Each enclosing block moves the lines in by one level**, through any number of branches. -/
theorem Encloses.lines_eq {source : String} {root part : Node} {seed seed' : UInt64} {depth : Nat}
    (h : Encloses source root seed depth part seed') :
    ∃ before after, (root.fragment source seed).lines =
      before ++ (part.fragment source seed').lines.map (Line.nest depth) ++ after := by
  induction h with
  | self root seed =>
    refine ⟨[], [], ?_⟩
    have hnest : Line.nest 0 = id := funext Line.nest_zero
    simp [hnest]
  | @branch _ _ _ _ _ _ level _ h _ ih =>
    obtain ⟨before, after, hlines⟩ := h.lines_eq
    obtain ⟨before', after', hlines'⟩ := ih
    refine ⟨before ++ before'.map (Line.nest level), after'.map (Line.nest level) ++ after, ?_⟩
    rw [hlines, hlines']
    simp [Function.comp_def, Line.nest_nest, Nat.add_comm]

/-! ## Splicing -/

theorem texts_nest (level : Nat) (fragment : Fragment) :
    (fragment.lines.map (Line.nest level)).map Line.render =
      fragment.texts.map fun text => String.ofList (List.replicate (4 * level) ' ') ++ text := by
  unfold Fragment.texts
  rw [List.map_map, List.map_map]
  apply List.map_congr_left
  intro line _
  exact Line.render_nest level line

theorem le_next_fragment {source : String} {root : Node} {seed : UInt64}
    (hcounter : seed.toNat + (root.entries (Span.readIn source)).length < UInt64.size) :
    seed ≤ (root.fragment source seed).next := by
  have hcounted := (issues_emit (Span.readIn source) id root [] (Set.injOn_id _) none
    (Code.start seed) hcounter).counted
  rw [UInt64.le_iff_toNat_le]
  exact hcounted ▸ Nat.le_add_right _ _

theorem splice_eq_emit (source : String) {identify : Position → ι} {root : Node} {here : Position}
    {code : Code ι} (hapart : root.Apart identify here code.frames)
    (hcounter : code.counter.toNat + (root.entries (Span.readIn source)).length < UInt64.size)
    (hcloses : closesOpen [] (script (Span.readIn source) id root [] none
      (Code.start code.counter)) = true) :
    code.splice (root.fragment source code.counter) =
      emit (Span.readIn source) identify root here none code := by
  have hrun : root.fragment source code.counter =
      (emit (Span.readIn source) identify root here none (Code.start code.counter)).fragment :=
    (run_emit (Span.readIn source) hapart.injective code.counter).symm
  have hnext := le_next_fragment hcounter
  rw [hrun] at hnext ⊢
  rw [emit_eq_within _ hapart hcloses]
  refine Code.splice_eq_within ?_ ?_ hnext
  · exact emit_frames_nil _ _ _ _ _ _ ⟨hapart.injective, by simp⟩
  · exact nested_run hapart.injective (extends_emit _ _ _ _ hapart.injective) code.counter

/-- **Splicing a branch in is generating it in place.** An await block splices in the code of the
branch. Of code whose open blocks belong to other nodes, nothing is changed; the lines of the branch
are added, all of them and moved in by four blanks per open block, and names are counted on. If the
branch closes no block that it has not opened, walking it where it stands gives the same. Branches of
branches are moved in by all the blocks around them, and come out the same otherwise; each await block
adds one. -/
theorem splice_fragment (source : String) (branch : Node) (here : Position) (code : Code Position)
    (hforeign : ∀ p ∈ branch.positions here, some p ∉ code.frames)
    (hcounter : code.counter.toNat + (branch.entries (Span.readIn source)).length < UInt64.size) :
    (emit (Span.readIn source) id branch here).spliceInto code =
      code.splice (branch.fragment source code.counter) ∧
    (code.splice (branch.fragment source code.counter)).frames = code.frames ∧
    (code.splice (branch.fragment source code.counter)).lines =
      code.lines ++ (branch.fragment source code.counter).lines.map (Line.nest code.level) ∧
    (code.splice (branch.fragment source code.counter)).fragment.texts =
      code.fragment.texts ++ ((branch.fragment source code.counter).texts.map fun text =>
        String.ofList (List.replicate (4 * code.level) ' ') ++ text) ∧
    (code.splice (branch.fragment source code.counter)).counter =
      (branch.fragment source code.counter).next ∧
    (closesOpen [] (script (Span.readIn source) id branch [] none (Code.start code.counter)) = true →
      code.splice (branch.fragment source code.counter) =
        emit (Span.readIn source) id branch here none code) ∧
    ∀ depth part seed, Encloses source branch code.counter depth part seed →
      (∃ before after, (code.splice (branch.fragment source code.counter)).fragment.texts =
        before ++ ((part.fragment source seed).texts.map fun text =>
          String.ofList (List.replicate (4 * (code.level + depth)) ' ') ++ text) ++ after) ∧
      (part.kind = .awaitBlock → ∀ visit ∈ branches part (part.parts []),
        ∃ seed', Encloses source branch code.counter (depth + 1) visit.2.2 seed') := by
  have hapart : branch.Apart id here code.frames := ⟨Set.injOn_id _, hforeign⟩
  have hlines : (code.splice (branch.fragment source code.counter)).lines =
      code.lines ++ (branch.fragment source code.counter).lines.map (Line.nest code.level) := by
    rw [Code.lines_splice, (nested_fragment source branch code.counter).filter_eq]
  refine ⟨?_, rfl, hlines, ?_, if_pos (le_next_fragment hcounter),
    splice_eq_emit source hapart hcounter, ?_⟩
  · unfold Emission.spliceInto
    rw [run_emit (Span.readIn source) hapart.injective]
    rfl
  · rw [← texts_nest]
    exact (congrArg (List.map Line.render) hlines).trans List.map_append
  · intro depth part seed hencloses
    refine ⟨?_, fun hkind visit hvisit => hencloses.await hkind hvisit⟩
    obtain ⟨before, after, hpart⟩ := hencloses.lines_eq
    refine ⟨(code.lines ++ before.map (Line.nest code.level)).map Line.render,
      (after.map (Line.nest code.level)).map Line.render, ?_⟩
    rw [← texts_nest]
    refine (congrArg (List.map Line.render) hlines).trans ?_
    rw [hpart]
    simp [Function.comp_def, Line.nest_nest, Nat.add_comm]

def letterTag (start : Nat) : Node :=
  { kind := .mustacheTag, fields := [.one .expression { kind := .text, span := ⟨start, start + 1⟩ }] }

def letterAwait : Node :=
  { kind := .awaitBlock, fields := [.one .thenBranch (letterTag 2)] }

/-- A branch with a choice and with an await block in an await block. -/
def awaitingBranch : Node :=
  { kind := .thenBlock
    fields := [.many .children [
      { kind := .ifBlock
        fields := [.many .children [letterTag 0],
          .one .elseBranch { kind := .elseBlock, fields := [.many .children [letterTag 1]] }] },
      { kind := .awaitBlock, fields := [.one .thenBranch letterAwait] }]] }

/-- Code with a block of the root and a block without an owner open. -/
def enclosingCode : Code Position :=
  ((Code.start 3).openBlock "if (a)" (some [])).openBlock "try" none

theorem splice_fragment_awaitingBranch :
    enclosingCode.splice (awaitingBranch.fragment "abc" 3) =
        emit (Span.readIn "abc") id awaitingBranch [(0, 1)] none enclosingCode ∧
      ∃ before after, (enclosingCode.splice (awaitingBranch.fragment "abc" 3)).fragment.texts =
        before ++ ["                let var$$5 = c;"] ++ after := by
  obtain ⟨-, -, -, -, -, hinPlace, hnested⟩ := splice_fragment "abc" awaitingBranch [(0, 1)]
    enclosingCode (by decide +kernel) (by decide +kernel)
  have houter : Splices "abc" awaitingBranch 3 1 letterAwait 5 :=
    ⟨(script (Span.readIn "abc") id awaitingBranch [] none (Code.start 3)).take 11,
      (script (Span.readIn "abc") id awaitingBranch [] none (Code.start 3)).drop 12,
      by decide +kernel, by decide +kernel⟩
  have hinner : Splices "abc" letterAwait 5 1 (letterTag 2) 5 :=
    ⟨(script (Span.readIn "abc") id letterAwait [] none (Code.start 5)).take 2,
      (script (Span.readIn "abc") id letterAwait [] none (Code.start 5)).drop 3,
      by decide +kernel, by decide +kernel⟩
  obtain ⟨before, after, htexts⟩ := (hnested _ _ _ (.branch houter (.branch hinner (.self _ _)))).1
  have hpart : ((letterTag 2).fragment "abc" 5).texts.map (fun text =>
      String.ofList (List.replicate (4 * (enclosingCode.level + (1 + (1 + 0)))) ' ') ++ text) =
        ["                let var$$5 = c;"] := by decide +kernel
  rw [hpart] at htexts
  exact ⟨hinPlace (by decide +kernel), before, after, htexts⟩

end TemplateCode
