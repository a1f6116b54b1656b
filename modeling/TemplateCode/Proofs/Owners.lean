import TemplateCode.Proofs.Script

/-!
# Owners do not matter

Blocks remember who owns them, and owners are compared; nothing else is done with them. So a run does
not depend on what the owners are, as long as different nodes have different ones.

* `Code.rename` gives the open blocks other owners.
* `script_rename`: the operations of a tree under other owners are the same with the owners replaced.
* `run_emit`: the fragment of a tree is the same wherever the tree stands and whatever identifies its
  nodes.
* `fragment_identities`: equal trees have the same code, each with its own way to tell its nodes apart.
-/

namespace TemplateCode

variable {ι κ : Type}

def Parent.rename (f : ι → κ) (parent : Parent ι) : Parent κ :=
  ⟨parent.kind, f parent.owner⟩

/-- The same operation with another owner. -/
def Edit.rename (f : ι → κ) : Edit ι → Edit κ
  | .append text => .append text
  | .declare initializer => .declare initializer
  | .openBlock header owner => .openBlock header (owner.map f)
  | .openScope params owner => .openScope params (owner.map f)
  | .close owner => .close (owner.map f)
  | .splice fragment => .splice fragment

namespace Code

/-- The same code with other owners of its open blocks. -/
def rename (f : ι → κ) (code : Code ι) : Code κ :=
  { written := code.written, frames := code.frames.map (Option.map f), counter := code.counter }

variable (f : ι → κ)

theorem write_rename (role : Role) (text : String) (code : Code ι) :
    (code.rename f).write role text = (code.write role text).rename f := by
  unfold write
  split
  · rfl
  · simp [rename, level]

theorem declare_rename (initializer : String) (code : Code ι) :
    (code.rename f).declare initializer = (code.declare initializer).rename f := by
  unfold declare
  split
  · rfl
  · exact write_rename f _ _ code.count

theorem openWith_rename (role : Role) (header : String) (owner : Option ι) (code : Code ι) :
    (code.rename f).openWith role header (owner.map f) =
      (code.openWith role header owner).rename f := by
  unfold openWith
  rw [write_rename]
  rfl

theorem closeInnermost_rename (code : Code ι) :
    (code.rename f).closeInnermost = code.closeInnermost.rename f := by
  unfold closeInnermost
  cases h : code.frames with
  | nil => simp [rename, h]
  | cons frame outer =>
    have hframes : (code.rename f).frames = frame.map f :: outer.map (Option.map f) := by
      simp [rename, h]
    rw [hframes]
    exact write_rename f .closer "\x7d" { code with frames := outer }

theorem foldl_closeInnermost_rename {α β : Type} {closed : List α} {closed' : List β}
    (hlength : closed'.length = closed.length) (code : Code ι) :
    closed'.foldl (fun code _ => code.closeInnermost) (code.rename f) =
      (closed.foldl (fun code _ => code.closeInnermost) code).rename f := by
  induction closed generalizing closed' code with
  | nil => rw [List.length_nil, List.length_eq_zero_iff] at hlength; rw [hlength]; rfl
  | cons _ closed ih =>
    cases closed' with
    | nil => cases hlength
    | cons _ closed' =>
      rw [List.foldl_cons, List.foldl_cons, closeInnermost_rename,
        ih (Nat.succ.inj hlength)]

end Code

variable {f : ι → κ} {S : Set ι}

/-- Owners of which `f` tells apart those in `S`, compared before and after. -/
theorem map_eq_some_iff (hf : Set.InjOn f S) {frame : Option ι} (hframe : ∀ o, frame = some o → o ∈ S)
    {owner : ι} (howner : owner ∈ S) : frame.map f = some (f owner) ↔ frame = some owner := by
  cases frame with
  | none => simp
  | some o =>
    rw [Option.map_some, Option.some.injEq, Option.some.injEq]
    exact hf.eq_iff (hframe o rfl) howner

variable [DecidableEq ι] [DecidableEq κ]

theorem length_takeWhile_rename (hf : Set.InjOn f S) {owner : ι} (howner : owner ∈ S) :
    ∀ {frames : List (Option ι)}, (∀ o, some o ∈ frames → o ∈ S) →
      ((frames.map (Option.map f)).takeWhile fun frame => frame = some (f owner)).length =
        (frames.takeWhile fun frame => frame = some owner).length := by
  intro frames
  induction frames with
  | nil => intro _; rfl
  | cons frame frames ih =>
    intro h
    have hiff := map_eq_some_iff hf (fun o ho => h o (ho ▸ List.mem_cons_self)) howner
    rw [List.map_cons]
    by_cases hframe : frame = some owner
    · rw [List.takeWhile_cons_of_pos (by simpa using hiff.2 hframe),
        List.takeWhile_cons_of_pos (by simpa using hframe), List.length_cons, List.length_cons,
        ih fun o ho => h o (List.mem_cons_of_mem _ ho)]
    · rw [List.takeWhile_cons_of_neg (by simpa using mt hiff.1 hframe),
        List.takeWhile_cons_of_neg (by simpa using hframe)]
      rfl

namespace Code

theorem closeOwned_rename (hf : Set.InjOn f S) {owner : ι} (howner : owner ∈ S) {code : Code ι}
    (hcode : ∀ o, some o ∈ code.frames → o ∈ S) :
    (code.rename f).closeOwned (f owner) = (code.closeOwned owner).rename f :=
  foldl_closeInnermost_rename f (length_takeWhile_rename hf howner hcode) code

theorem owns_rename (hf : Set.InjOn f S) {owner : ι} (howner : owner ∈ S) {code : Code ι}
    (hcode : ∀ o, some o ∈ code.frames → o ∈ S) :
    (code.rename f).owns (f owner) = code.owns owner := by
  unfold owns rename
  rw [List.any_map, Bool.eq_iff_iff, List.any_eq_true, List.any_eq_true]
  have hiff : ∀ frame ∈ code.frames, frame.map f = some (f owner) ↔ frame = some owner :=
    fun frame hframe => map_eq_some_iff hf (fun o ho => hcode o (ho ▸ hframe)) howner
  constructor
  · rintro ⟨frame, hframe, h⟩
    exact ⟨frame, hframe, by simpa using (hiff frame hframe).1 (by simpa using h)⟩
  · rintro ⟨frame, hframe, h⟩
    exact ⟨frame, hframe, by simpa using (hiff frame hframe).2 (by simpa using h)⟩

/-- An operation commutes with renaming, if it does so where it closes the blocks of an owner. -/
theorem apply_rename_of (f : ι → κ) {code : Code ι} {edit : Edit ι}
    (h : ∀ owner, edit = .close (some owner) →
      (code.rename f).closeOwned (f owner) = (code.closeOwned owner).rename f) :
    (code.rename f).apply (edit.rename f) = (code.apply edit).rename f := by
  cases edit with
  | append text => exact write_rename f .plain text code
  | declare initializer => exact declare_rename f initializer code
  | openBlock header owner => exact openWith_rename f .opener header owner code
  | openScope params owner => exact openWith_rename f .scope _ owner code.count
  | close owner =>
    cases owner with
    | none => exact closeInnermost_rename f code
    | some owner => exact h owner rfl
  | splice fragment => simp [apply, Edit.rename, splice, rename, level]

theorem apply_rename (hf : Set.InjOn f S) {code : Code ι}
    (hcode : ∀ o, some o ∈ code.frames → o ∈ S) {edit : Edit ι}
    (hedit : ∀ o, edit.owner? = some o → o ∈ S) :
    (code.rename f).apply (edit.rename f) = (code.apply edit).rename f := by
  refine apply_rename_of f fun owner hclose => closeOwned_rename hf (hedit owner ?_) hcode
  rw [hclose, Edit.owner?]

end Code

theorem mem_onFrames {frames : List (Option ι)} {edit : Edit ι} {frame : Option ι}
    (h : frame ∈ edit.onFrames frames) : frame = edit.owner? ∨ frame ∈ frames := by
  cases edit with
  | openBlock header owner => exact List.mem_cons.1 h
  | openScope params owner => exact List.mem_cons.1 h
  | close owner =>
    cases owner with
    | none => exact Or.inr (List.mem_of_mem_tail h)
    | some owner => exact Or.inr ((List.dropWhile_suffix _).subset h)
  | append text => exact Or.inr h
  | declare initializer => exact Or.inr h
  | splice fragment => exact Or.inr h

/-- The owners of the open blocks and of the operations to come are in `S`. -/
def OwnersIn (S : Set ι) (code : Code ι) (edits : List (Edit ι)) : Prop :=
  (∀ o, some o ∈ code.frames → o ∈ S) ∧ ∀ edit ∈ edits, ∀ o, edit.owner? = some o → o ∈ S

theorem OwnersIn.apply {code : Code ι} {edit : Edit ι} {edits : List (Edit ι)}
    (h : OwnersIn S code (edit :: edits)) : OwnersIn S (code.apply edit) edits := by
  obtain ⟨hedit, hedits⟩ := List.forall_mem_cons.1 h.2
  refine ⟨fun o ho => ?_, hedits⟩
  rw [Code.apply_frames] at ho
  rcases mem_onFrames ho with hown | hold
  · exact hedit o hown.symm
  · exact h.1 o hold

theorem OwnersIn.split {code : Code ι} {edits more : List (Edit ι)}
    (h : OwnersIn S code (edits ++ more)) :
    OwnersIn S code edits ∧ OwnersIn S (code.applyAll edits) more := by
  induction edits generalizing code with
  | nil => exact ⟨⟨h.1, by simp⟩, h⟩
  | cons edit edits ih =>
    obtain ⟨hedits, hmore⟩ := ih (OwnersIn.apply h)
    exact ⟨⟨h.1, fun e he => h.2 e (List.mem_append_left _ he)⟩, hmore⟩

theorem OwnersIn.applyAll_rename (hf : Set.InjOn f S) {code : Code ι} {edits : List (Edit ι)}
    (h : OwnersIn S code edits) :
    (code.rename f).applyAll (edits.map (Edit.rename f)) = (code.applyAll edits).rename f := by
  induction edits generalizing code with
  | nil => rfl
  | cons edit edits ih =>
    rw [List.map_cons, Code.applyAll_cons, Code.applyAll_cons,
      Code.apply_rename hf h.1 (h.2 edit List.mem_cons_self), ih h.apply]

/-! ## Whole trees -/

theorem ownersIn_script {read : Reading} {identify : Position → ι} {root : Node} {here : Position}
    (hroot : ∀ p ∈ root.positions here, identify p ∈ S) {code : Code ι}
    (hcode : ∀ o, some o ∈ code.frames → o ∈ S) (parent : Option (Parent ι)) :
    OwnersIn S code (script read identify root here parent code) := by
  refine ⟨hcode, fun edit hedit o ho => ?_⟩
  obtain ⟨p, hp, rfl⟩ := owner?_script hedit ho
  exact hroot p hp

omit [DecidableEq ι] [DecidableEq κ] in
theorem bindingScope_rename (f : ι → κ) (read : Reading) (node : Node) (owner : ι) :
    bindingScope read node (f owner) = (bindingScope read node owner).map (Edit.rename f) := by
  unfold bindingScope
  split <;> rfl

omit [DecidableEq ι] [DecidableEq κ] in
theorem opening_rename (f : ι → κ) (read : Reading) (node : Node) (owner : ι) (parent : Option Kind)
    (chained : Bool) :
    opening read node (f owner) parent chained =
      (opening read node owner parent chained).map (Edit.rename f) := by
  unfold opening
  cases node.kind with
  | inlineComponent =>
    dsimp only
    rw [List.map_cons, bindingScope_rename]
    rfl
  | element =>
    dsimp only
    split
    · exact bindingScope_rename f read node owner
    · rfl
  | slotTemplate => exact bindingScope_rename f read node owner
  | ifBlock => cases chained <;> rfl
  | elseBlock =>
    dsimp only [elseBlock]
    split
    · rfl
    · split <;> rfl
  | eachBlock =>
    dsimp only [eachBlock]
    split <;> rfl
  | spread =>
    dsimp only
    split <;> rfl
  | debugTag =>
    dsimp only
    rw [List.map_map]
    rfl
  | _ => rfl

theorem isChained_rename (hf : Set.InjOn f S) {parent : Option (Parent ι)}
    (hparent : ∀ q, parent = some q → q.owner ∈ S) {code : Code ι}
    (hcode : ∀ o, some o ∈ code.frames → o ∈ S) :
    isChained (parent.map (Parent.rename f)) (code.rename f) = isChained parent code := by
  cases parent with
  | none => rfl
  | some q =>
    unfold isChained
    dsimp only [Option.map_some, Parent.rename]
    rw [Code.owns_rename hf (hparent q rfl) hcode]

theorem spliceStep_rename {branch : Option (Position × Node)} {script : Position × Node → Script ι}
    {script' : Position × Node → Script κ}
    (h : ∀ part, branch = some part → ∀ seed, (script' part).run seed = (script part).run seed)
    (code : Code ι) :
    spliceStep (branch.map script') (code.rename f) =
      (spliceStep (branch.map script) code).map (Edit.rename f) := by
  cases branch with
  | none => rfl
  | some part =>
    have hrun : (script' part).run (code.rename f).counter = (script part).run code.counter :=
      h part rfl code.counter
    simp only [Option.map_some, spliceStep, hrun]
    rfl

/-- What two steps have to do with each other if the second works on the renamed code. -/
abbrev InStep (f : ι → κ) (S : Set ι) (step : Code ι → List (Edit ι))
    (step' : Code κ → List (Edit κ)) : Prop :=
  ∀ code, OwnersIn S code (step code) → step' (code.rename f) = (step code).map (Edit.rename f)

theorem awaitSteps_rename (read : Reading) (node : Node) (here : Position)
    {script : Position × Node → Script ι} {script' : Position × Node → Script κ}
    (h : ∀ part ∈ node.held here, ∀ seed, (script' part).run seed = (script part).run seed) :
    List.Forall₂ (InStep f S)
      ((awaitSteps read node (mapBelow script (node.parts here))).map AwaitStep.script)
      ((awaitSteps read node (mapBelow script' (node.parts here))).map AwaitStep.script) := by
  have hfirst : ∀ slot, InStep f S (spliceStep ((firstIn slot (node.parts here)).map script))
      (spliceStep ((firstIn slot (node.parts here)).map script')) :=
    fun slot code _ => spliceStep_rename (fun part hpart => h part (mem_of_firstIn hpart)) code
  have hcatch : InStep f S (spliceStep ((catchBranch node (node.parts here)).map script))
      (spliceStep ((catchBranch node (node.parts here)).map script')) :=
    fun code _ => spliceStep_rename (fun part hpart => h part (mem_of_catchBranch hpart)) code
  have hfixed : ∀ edit : Edit ι, InStep f S (fun _ => [edit]) (fun _ => [edit.rename f]) :=
    fun edit code _ => rfl
  unfold awaitSteps
  rw [firstIn_mapBelow, firstIn_mapBelow, catchBranch_mapBelow, firstIn_mapBelow, firstIn_mapBelow,
    catchBranch_mapBelow, List.map_append, List.map_append]
  refine List.rel_append ?_ ?_
  · exact .cons (hfixed _) (.cons (hfirst .pending) (.cons (hfixed _)
      (.cons (hfirst .thenBranch) (.cons (hfixed _) .nil))))
  · cases hbranch : catchBranch node (node.parts here) with
    | none => exact .cons (hfixed _) .nil
    | some part =>
      rw [hbranch] at hcatch
      exact .cons (hfixed _) (.cons hcatch (.cons (hfixed _) .nil))

/-- **The operations of a tree under other owners** are the same with the owners replaced, as long as
the new owners tell apart what the old ones did. -/
theorem script_rename (hf : Set.InjOn f S) (read : Reading) (identify : Position → ι) (root : Node)
    (here : Position) (hroot : ∀ p ∈ root.positions here, identify p ∈ S)
    (parent : Option (Parent ι)) (hparent : ∀ q, parent = some q → q.owner ∈ S) (code : Code ι)
    (hcode : ∀ o, some o ∈ code.frames → o ∈ S) :
    script read (fun p => f (identify p)) root here (parent.map (Parent.rename f)) (code.rename f) =
      (script read identify root here parent code).map (Edit.rename f) := by
  induction here, root using Node.located_induction generalizing parent code with
  | step here node ih =>
    have hpart : ∀ part ∈ node.held here, ∀ p ∈ part.2.positions part.1, identify p ∈ S :=
      fun part hmem p hp => hroot p (Node.positions_of_held hmem hp)
    have hfits : OwnersIn S code (script read identify node here parent code) :=
      ownersIn_script hroot hcode parent
    -- a run of its own starts without open blocks, so the branches come out the same
    have hrun : ∀ part ∈ node.held here, ∀ seed,
        (script read (fun p => f (identify p)) part.2 part.1).run seed =
          (script read identify part.2 part.1).run seed := by
      intro part hmem seed
      have hnil : ∀ o, some o ∈ (Code.start seed : Code ι).frames → o ∈ S := by simp [Code.start]
      have howners : OwnersIn S (Code.start seed)
          (script read identify part.2 part.1 none (Code.start seed)) :=
        ownersIn_script (hpart part hmem) hnil none
      have happly := howners.applyAll_rename hf
      rw [← ih part hmem (hpart part hmem) none (by simp) (Code.start seed) hnil] at happly
      exact congrArg Code.fragment happly
    rw [script_eq] at hfits ⊢
    rw [script_eq]
    refine Code.sequence_map (Code.rename f) (Edit.rename f) OwnersIn.split
      (OwnersIn.applyAll_rename hf) (List.rel_append ?_ (.cons (fun _ _ => rfl) .nil)) hfits
    unfold nodeSteps
    split
    · exact awaitSteps_rename read node here hrun
    · rw [walked_mapBelow, walked_mapBelow, List.map_map, List.map_map]
      refine .cons ?_ ?_
      · intro code hcode
        have hkind : (parent.map (Parent.rename f)).map Parent.kind = parent.map Parent.kind := by
          rw [Option.map_map]; rfl
        dsimp only
        rw [hkind, isChained_rename hf hparent hcode.1, opening_rename]
      · rw [List.forall₂_map_left_iff, List.forall₂_map_right_iff, List.forall₂_same]
        intro visit hvisit code hcode
        have hmem := snd_mem_of_mem_walked hvisit
        exact ih visit.2 hmem (hpart visit.2 hmem) (some ⟨node.kind, identify here⟩)
          (fun q hq => by cases hq; exact hroot here (node.here_mem_positions here)) code hcode.1

/-! ## Places -/

theorem Node.held_append (here below : Position) (node : Node) :
    node.held (below ++ here) = (node.held below).map fun part => (part.1 ++ here, part.2) := by
  unfold held
  rw [parts_append, flatMap_mapBelow]

/-- A tree has the same nodes wherever it stands. -/
theorem Node.append_mem_positions {here below p : Position} {root : Node}
    (h : p ∈ root.positions below) : p ++ here ∈ root.positions (below ++ here) := by
  induction below, root using Node.located_induction with
  | step below node ih =>
    rcases mem_positions.1 h with rfl | ⟨part, hpart, hp⟩
    · exact here_mem_positions _ node
    · refine mem_positions.2 (Or.inr ⟨(part.1 ++ here, part.2), ?_, ih part hpart hp⟩)
      rw [held_append]
      exact List.mem_map_of_mem hpart

/-- The operations of a tree that stands elsewhere. -/
theorem script_append (read : Reading) (identify : Position → ι) (here below : Position)
    (root : Node) :
    script read identify root (below ++ here) =
      script read (fun p => identify (p ++ here)) root below := by
  induction below, root using Node.located_induction with
  | step below node ih =>
    rw [script_eq, script_eq, Node.parts_append, mapBelow_mapBelow]
    congr 1
    exact mapBelow_congr ih

omit [DecidableEq ι] in
theorem Node.injOn_append {identify : Position → ι} {root : Node} {here : Position}
    (hinj : Set.InjOn identify { p | p ∈ root.positions here }) :
    Set.InjOn (fun p => identify (p ++ here)) { p | p ∈ root.positions [] } := by
  intro p hp q hq h
  exact List.append_cancel_right (hinj (append_mem_positions hp) (append_mem_positions hq) h)

/-- **A run of its own wherever the tree stands**: the operations are those of the tree that stands
alone and is identified by positions, with the owners replaced. -/
theorem script_start (read : Reading) {identify : Position → ι} {root : Node} {here : Position}
    (hinj : Set.InjOn identify { p | p ∈ root.positions here }) (seed : UInt64) :
    script read identify root here none (Code.start seed) =
      (script read id root [] none (Code.start seed)).map
        (Edit.rename fun p => identify (p ++ here)) := by
  have happend := script_append read identify here [] root
  rw [List.nil_append] at happend
  rw [happend]
  exact script_rename (Node.injOn_append hinj) read id root [] (fun p hp => hp) none (by simp)
    (Code.start seed) (by simp [Code.start])

theorem emit_start (read : Reading) {identify : Position → ι} {root : Node} {here : Position}
    (hinj : Set.InjOn identify { p | p ∈ root.positions here }) (seed : UInt64) :
    emit read identify root here none (Code.start seed) =
      (emit read id root [] none (Code.start seed)).rename fun p => identify (p ++ here) := by
  have howners : OwnersIn { p | p ∈ root.positions [] } (Code.start seed)
      (script read id root [] none (Code.start seed)) :=
    ownersIn_script (fun p hp => hp) (by simp [Code.start]) none
  rw [emit_eq_applyAll, emit_eq_applyAll, script_start read hinj]
  exact howners.applyAll_rename (Node.injOn_append hinj)

theorem run_emit (read : Reading) {identify : Position → ι} {root : Node} {here : Position}
    (hinj : Set.InjOn identify { p | p ∈ root.positions here }) (seed : UInt64) :
    (emit read identify root here).run seed = (emit read id root []).run seed :=
  congrArg Code.fragment (emit_start read hinj seed)

/-! ## Equal trees -/

/-- **Code does not depend on what identifies the nodes.** Two trees that are equal may stand at different
places and have different ways to tell their nodes apart, and there may be equal nodes within them. As long as
no two nodes of a tree are identified, both have the same lines and the same next number, namely those of the
tree that stands alone and is identified by positions. -/
theorem fragment_identities (source : String) (seed : UInt64) {a b : Node} (hequal : (a == b) = true)
    {here here' : Position} {identify : Position → ι} {identify' : Position → κ}
    (hinj : Set.InjOn identify { p | p ∈ a.positions here })
    (hinj' : Set.InjOn identify' { p | p ∈ b.positions here' }) :
    (emit (Span.readIn source) identify a here).run seed =
        (emit (Span.readIn source) identify' b here').run seed ∧
      (emit (Span.readIn source) identify' b here').run seed = b.fragment source seed := by
  obtain rfl : a = b := eq_of_beq hequal
  have hfirst := run_emit (Span.readIn source) hinj seed
  have hsecond := run_emit (Span.readIn source) hinj' seed
  exact ⟨hfirst.trans hsecond.symm, hsecond⟩

/-- A condition that holds another one, with the same alternative. -/
def twinConditions : Node :=
  let alternative : Field :=
    .one .elseBranch { kind := .elseBlock, fields := [.many .children [{ kind := .ifBlock }]] }
  { kind := .ifBlock
    fields := [.many .children [{ kind := .ifBlock, fields := [alternative] }, { kind := .ifBlock }],
      alternative] }

/-- Nodes at regular distances in memory, in the order of the tree, upwards or downwards. -/
def addressIn (root : Node) (upwards : Bool) (position : Position) : Nat :=
  let number := (root.positions []).idxOf position
  if upwards then 4096 + 80 * number else 65536 - 80 * number

theorem fragment_identities_twinConditions :
    Set.InjOn (addressIn twinConditions true) { p | p ∈ twinConditions.positions [] } ∧
      Set.InjOn (addressIn twinConditions false) { p | p ∈ twinConditions.positions [] } ∧
      (emit (Span.readIn "") (addressIn twinConditions true) twinConditions []).run 3 =
        (emit (Span.readIn "") (addressIn twinConditions false) twinConditions []).run 3 := by
  have hup : ∀ p ∈ twinConditions.positions [], ∀ q ∈ twinConditions.positions [],
      addressIn twinConditions true p = addressIn twinConditions true q → p = q := by decide +kernel
  have hdown : ∀ p ∈ twinConditions.positions [], ∀ q ∈ twinConditions.positions [],
      addressIn twinConditions false p = addressIn twinConditions false q → p = q := by decide +kernel
  have hinj : Set.InjOn (addressIn twinConditions true) { p | p ∈ twinConditions.positions [] } :=
    fun p hp q hq => hup p hp q hq
  have hinj' : Set.InjOn (addressIn twinConditions false) { p | p ∈ twinConditions.positions [] } :=
    fun p hp q hq => hdown p hp q hq
  exact ⟨hinj, hinj', (fragment_identities "" 3 (by decide +kernel) hinj hinj').1⟩

-- nodes that are not told apart close the blocks of each other
example : (emit (Span.readIn "") (fun _ => ()) twinConditions []).run 3 ≠ twinConditions.fragment "" 3 := by
  decide +kernel

end TemplateCode
