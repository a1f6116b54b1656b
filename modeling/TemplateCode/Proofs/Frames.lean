import TemplateCode.Proofs.Parts

/-!
# Open blocks

An operation changes the stack of open blocks in a way that depends on the stack alone. A node closes
some of the blocks it is met with, opens blocks of its own, and closes these when it is left, so that
what is left of the stack is an outer part of what it was.

* `Edit.onFrames`: the effect of an operation on the stack.
* `opening_shape`: what a node does when it is entered.
* `emit_frames_suffix`: what a whole tree leaves of the stack.
* `emit_frames_nil`: a run that starts without open blocks ends without.
-/

namespace TemplateCode

variable {ι : Type}

namespace Code

@[simp] theorem write_frames (role : Role) (text : String) (code : Code ι) :
    (code.write role text).frames = code.frames := by
  unfold write
  split <;> rfl

@[simp] theorem declare_frames (initializer : String) (code : Code ι) :
    (code.declare initializer).frames = code.frames := by
  unfold declare
  split
  · rfl
  · rw [write_frames]; rfl

@[simp] theorem openWith_frames (role : Role) (header : String) (owner : Option ι) (code : Code ι) :
    (code.openWith role header owner).frames = owner :: code.frames := by
  simp [openWith]

theorem openBlock_frames (header : String) (owner : Option ι) (code : Code ι) :
    (code.openBlock header owner).frames = owner :: code.frames :=
  openWith_frames ..

theorem openScope_frames (params : List String) (owner : Option ι) (code : Code ι) :
    (code.openScope params owner).frames = owner :: code.frames :=
  openWith_frames ..

@[simp] theorem closeInnermost_frames (code : Code ι) :
    code.closeInnermost.frames = code.frames.tail := by
  unfold closeInnermost
  split
  · rename_i h; simp [h]
  · rename_i h; simp [h]

theorem mem_of_mem_closeInnermost {code : Code ι} {frame : Option ι}
    (h : frame ∈ code.closeInnermost.frames) : frame ∈ code.frames :=
  List.mem_of_mem_tail (closeInnermost_frames code ▸ h)

theorem foldl_closeInnermost_frames (closed : List (Option ι)) (code : Code ι) :
    (closed.foldl (fun code _ => code.closeInnermost) code).frames =
      code.frames.drop closed.length := by
  induction closed generalizing code with
  | nil => simp
  | cons frame closed ih => simp [ih]

variable [DecidableEq ι]

@[simp] theorem closeOwned_frames (owner : ι) (code : Code ι) :
    (code.closeOwned owner).frames = code.frames.dropWhile fun frame => frame = some owner := by
  unfold closeOwned
  rw [foldl_closeInnermost_frames]
  conv_lhs => rw [← List.takeWhile_append_dropWhile (p := fun frame => decide (frame = some owner))
    (l := code.frames), List.drop_append]
  simp

end Code

variable [DecidableEq ι]

/-- The effect of an operation on the stack of open blocks. -/
def Edit.onFrames (frames : List (Option ι)) : Edit ι → List (Option ι)
  | .openBlock _ owner | .openScope _ owner => owner :: frames
  | .close none => frames.tail
  | .close (some owner) => frames.dropWhile fun frame => frame = some owner
  | .append _ | .declare _ | .splice _ => frames

namespace Code

@[simp] theorem applyAll_nil (code : Code ι) : code.applyAll [] = code := rfl

@[simp] theorem applyAll_cons (code : Code ι) (edit : Edit ι) (edits : List (Edit ι)) :
    code.applyAll (edit :: edits) = (code.apply edit).applyAll edits := rfl

@[simp] theorem applyAll_append (code : Code ι) (edits more : List (Edit ι)) :
    code.applyAll (edits ++ more) = (code.applyAll edits).applyAll more :=
  List.foldl_append

theorem apply_frames (code : Code ι) (edit : Edit ι) :
    (code.apply edit).frames = edit.onFrames code.frames := by
  cases edit with
  | append text => exact write_frames ..
  | declare initializer => exact declare_frames ..
  | openBlock header owner => exact openBlock_frames ..
  | openScope params owner => exact openScope_frames ..
  | close owner =>
    cases owner with
    | none => exact closeInnermost_frames ..
    | some owner => exact closeOwned_frames ..
  | splice fragment => rfl

theorem applyAll_frames (code : Code ι) (edits : List (Edit ι)) :
    (code.applyAll edits).frames = edits.foldl Edit.onFrames code.frames := by
  induction edits generalizing code with
  | nil => rfl
  | cons edit edits ih => rw [applyAll_cons, ih, apply_frames, List.foldl_cons]

end Code

/-! ## Entering a node -/

/-- Whether an operation writes a statement or opens a block of the given owner. -/
def Edit.WritesFor (owner : ι) : Edit ι → Prop
  | .append _ | .declare _ => True
  | .openBlock _ holder | .openScope _ holder => holder = some owner
  | .close _ | .splice _ => False

omit [DecidableEq ι] in
theorem bindingScope_writesFor (read : Reading) (node : Node) (owner : ι) {edit : Edit ι}
    (h : edit ∈ bindingScope read node owner) : edit.WritesFor owner := by
  unfold bindingScope at h
  split at h
  · cases h
  · rw [List.mem_singleton.1 h, Edit.WritesFor]

omit [DecidableEq ι] in
/-- **A node that is entered** first closes blocks, whoever owns them, and then writes statements and
opens blocks of its own. Only alternatives and conditions that go on a chain close anything. -/
theorem opening_shape (read : Reading) (node : Node) (owner : ι) (parent : Option Kind)
    (chained : Bool) :
    ∃ closed writes, opening read node owner parent chained =
        List.replicate closed (.close none) ++ writes ∧
      (∀ edit ∈ writes, edit.WritesFor owner) ∧
      (closed ≠ 0 → node.kind = .elseBlock ∨ node.kind = .ifBlock ∧ chained = true) := by
  have closesNone : ∀ (writes : List (Edit ι)) (closes : Prop), (∀ edit ∈ writes, edit.WritesFor owner) →
      ∃ closed writes', writes = List.replicate closed (.close none) ++ writes' ∧
        (∀ edit ∈ writes', edit.WritesFor owner) ∧ (closed ≠ 0 → closes) :=
    fun writes closes h => ⟨0, writes, rfl, h, fun hne => (hne rfl).elim⟩
  have hscope : ∀ edit ∈ bindingScope read node owner, edit.WritesFor owner :=
    fun edit h => bindingScope_writesFor read node owner h
  -- conditions and alternatives close what they close before they open a block
  unfold opening
  cases node.kind with
  | inlineComponent => exact closesNone _ _ (List.forall_mem_cons.2 ⟨trivial, hscope⟩)
  | element =>
    dsimp only
    apply closesNone
    split
    · exact hscope
    · simp
  | slotTemplate => exact closesNone _ _ hscope
  | ifBlock =>
    dsimp only [ifBlock]
    split
    · rename_i hchained
      exact ⟨1, _, rfl, by simp [Edit.WritesFor], fun _ => Or.inr ⟨rfl, hchained⟩⟩
    · exact closesNone _ _ (by simp [Edit.WritesFor])
  | elseBlock =>
    dsimp only [elseBlock]
    split
    · exact closesNone _ _ (by simp)
    · split
      · exact ⟨2, _, rfl, by simp [Edit.WritesFor], fun _ => Or.inl rfl⟩
      · exact ⟨1, _, rfl, by simp [Edit.WritesFor], fun _ => Or.inl rfl⟩
  | eachBlock =>
    dsimp only [eachBlock]
    apply closesNone
    split <;> simp [Edit.WritesFor]
  | spread =>
    dsimp only
    apply closesNone
    split <;> simp [Edit.WritesFor]
  | debugTag =>
    apply closesNone
    intro edit hedit
    obtain ⟨identifier, -, rfl⟩ := List.mem_map.1 hedit
    trivial
  | _ => exact closesNone _ _ (by simp [Edit.WritesFor])

theorem foldl_onFrames_close (closed : Nat) (frames : List (Option ι)) :
    (List.replicate closed (.close none)).foldl Edit.onFrames frames = frames.drop closed := by
  induction closed generalizing frames with
  | zero => rfl
  | succ closed ih =>
    rw [List.replicate_succ, List.foldl_cons, ih, Edit.onFrames, List.drop_tail]

theorem foldl_onFrames_writes {owner : ι} {writes : List (Edit ι)}
    (h : ∀ edit ∈ writes, edit.WritesFor owner) (frames : List (Option ι)) :
    ∃ own, writes.foldl Edit.onFrames frames = List.replicate own (some owner) ++ frames := by
  induction writes generalizing frames with
  | nil => exact ⟨0, rfl⟩
  | cons edit writes ih =>
    obtain ⟨hedit, hwrites⟩ := List.forall_mem_cons.1 h
    obtain ⟨own, hown⟩ := ih hwrites (edit.onFrames frames)
    rw [List.foldl_cons, hown]
    cases edit with
    | append text => exact ⟨own, rfl⟩
    | declare initializer => exact ⟨own, rfl⟩
    | openBlock header holder =>
      obtain rfl : holder = some owner := hedit
      exact ⟨own + 1, by simp [Edit.onFrames, List.replicate_succ']⟩
    | openScope params holder =>
      obtain rfl : holder = some owner := hedit
      exact ⟨own + 1, by simp [Edit.onFrames, List.replicate_succ']⟩
    | close holder => exact hedit.elim
    | splice fragment => exact hedit.elim

/-- The stack after a node is entered, with the shape of its opening: an outer part of what it was,
under blocks of the node. -/
theorem opening_frames (read : Reading) (node : Node) (owner : ι) (parent : Option Kind)
    (chained : Bool) (code : Code ι) :
    ∃ own closed writes, opening read node owner parent chained =
        List.replicate closed (.close none) ++ writes ∧
      (∀ edit ∈ writes, edit.WritesFor owner) ∧
      (closed ≠ 0 → node.kind = .elseBlock ∨ node.kind = .ifBlock ∧ chained = true) ∧
      (code.applyAll (opening read node owner parent chained)).frames =
        List.replicate own (some owner) ++ code.frames.drop closed := by
  obtain ⟨closed, writes, hopening, hwrites, hcloses⟩ := opening_shape read node owner parent chained
  obtain ⟨own, hown⟩ := foldl_onFrames_writes hwrites (code.frames.drop closed)
  refine ⟨own, closed, writes, hopening, hwrites, hcloses, ?_⟩
  rw [Code.applyAll_frames, hopening, List.foldl_append, foldl_onFrames_close, hown]

/-! ## Whole trees -/

/-- Once an owner has closed what it can, nothing of its own is left above the blocks it found. -/
theorem dropWhile_suffix {owner : ι} {outer : List (Option ι)} (own : Nat) :
    ∀ {frames : List (Option ι)}, frames <:+ List.replicate own (some owner) ++ outer →
      (frames.dropWhile fun frame => frame = some owner) <:+ outer := by
  induction own with
  | zero => exact fun h => (List.dropWhile_suffix _).trans h
  | succ own ih =>
    intro frames h
    rw [List.replicate_succ, List.cons_append, List.suffix_cons_iff] at h
    rcases h with rfl | h
    · rw [List.dropWhile_cons_of_pos (by simp)]
      exact ih List.suffix_rfl
    · exact ih h

theorem dropWhile_of_not_mem {owner : ι} {frames : List (Option ι)} (howner : some owner ∉ frames) :
    (frames.dropWhile fun frame => frame = some owner) = frames := by
  cases frames with
  | nil => rfl
  | cons frame frames =>
    have hne : frame ≠ some owner := fun h => howner (h ▸ List.mem_cons_self)
    rw [List.dropWhile_cons_of_neg (by simpa using hne)]

theorem takeWhile_of_not_mem {owner : ι} {frames : List (Option ι)} (howner : some owner ∉ frames) :
    (frames.takeWhile fun frame => frame = some owner) = [] := by
  cases frames with
  | nil => rfl
  | cons frame frames =>
    have hne : frame ≠ some owner := fun h => howner (h ▸ List.mem_cons_self)
    rw [List.takeWhile_cons_of_neg (by simpa using hne)]

theorem Code.owns_of_not_mem {owner : ι} {code : Code ι} (howner : some owner ∉ code.frames) :
    code.owns owner = false := by
  unfold owns
  rw [List.any_eq_false]
  intro frame hframe
  have hne : frame ≠ some owner := fun h => howner (h ▸ hframe)
  simpa using hne

theorem Code.closeOwned_of_not_mem {owner : ι} (code : Code ι) (howner : some owner ∉ code.frames) :
    code.closeOwned owner = code := by
  unfold closeOwned
  rw [takeWhile_of_not_mem howner]
  rfl

omit [DecidableEq ι] in
@[simp] theorem spliceBranch_frames (branch : Option (Emission ι)) (code : Code ι) :
    (spliceBranch branch code).frames = code.frames := by
  cases branch <;> rfl

/-- An await block leaves the stack as it was. -/
theorem awaitBlock_frames (read : Reading) (node : Node) (below : List (Slot × List (Emission ι)))
    (code : Code ι) : (awaitBlock read node below code).frames = code.frames := by
  unfold awaitBlock awaitSteps
  cases catchBranch node below <;> simp [AwaitStep.run, Code.apply_frames, Edit.onFrames]

/-- **A tree leaves an outer part of the stack.** Of the blocks that were open before, some of the
innermost may have been closed; of those that the nodes of the tree opened, none is left. -/
theorem emit_frames_suffix (read : Reading) (identify : Position → ι) (root : Node)
    (here : Position) (parent : Option (Parent ι)) (code : Code ι)
    (hapart : root.Apart identify here code.frames) :
    (emit read identify root here parent code).frames <:+ code.frames := by
  induction here, root using Node.located_induction generalizing parent code with
  | step here node ih =>
    by_cases hkind : node.kind = .awaitBlock
    · have hframes : (emit read identify node here parent code).frames = code.frames := by
        rw [emit_await read identify here hkind, Code.closeOwned_frames, awaitBlock_frames,
          dropWhile_of_not_mem hapart.here_foreign]
      exact ⟨[], hframes⟩
    · obtain ⟨own, closed, -, -, -, -, hframes⟩ := opening_frames read node (identify here)
        (parent.map Parent.kind) (isChained parent code) code
      have houter := List.drop_suffix closed code.frames
      rw [emit_walk read identify here hkind, Code.closeOwned_frames]
      refine (dropWhile_suffix own ?_).trans houter
      -- each node of the content leaves an outer part of what the opening has left
      rw [← hframes]
      refine List.foldlRecOn
        (motive := fun code' : Code ι => code'.frames <:+
          (code.applyAll (opening read node (identify here) (parent.map Parent.kind)
            (isChained parent code))).frames) _ _ List.suffix_rfl ?_
      intro code' hsuffix visit hvisit
      have hpart := snd_mem_of_mem_walked hvisit
      have hpartApart := hapart.part_of_suffix hpart (hframes ▸ hsuffix) houter
      exact (ih visit.2 hpart _ code' hpartApart).trans hsuffix

/-- A run that starts without open blocks ends without. -/
theorem emit_frames_nil (read : Reading) (identify : Position → ι) (root : Node) (here : Position)
    (parent : Option (Parent ι)) (seed : UInt64) (hapart : root.Apart identify here []) :
    (emit read identify root here parent (Code.start seed)).frames = [] :=
  List.suffix_nil.1
    (emit_frames_suffix read identify root here parent (Code.start seed) hapart)

end TemplateCode
