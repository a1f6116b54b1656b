import TemplateCode.Proofs.Splicing
import Mathlib.Logic.Function.Iterate

/-!
# Owners are heights

The blocks of a node lie directly on what the node has kept of the stack when it was entered. So to
close the blocks of a node is to close all blocks above that height, and the node has a block open if
the stack is higher. Neither owners nor positions are needed to say what a tree does.

* `Unnoticed`: changes to code that operations do not notice unless they close the blocks of an owner.
* `Code.forget` forgets the owners of open blocks, `Code.closeTo` closes blocks down to a height.
* `Node.effect`: the effect of a tree on code without owners, by recursion on the tree alone.
* `forget_emit`: this is what the tree does, whoever owns its blocks.
* `fragment_eq_effect`: so it gives the code of the tree.
-/

namespace TemplateCode

variable {ι κ : Type}

namespace Code

/-- The same code with the owners of its open blocks forgotten. -/
def forget (code : Code ι) : Code Unit :=
  code.rename fun _ => ()

/-- Closes blocks from the innermost outwards until at most `height` are open. -/
def closeTo (height : Nat) (code : Code ι) : Code ι :=
  closeInnermost^[code.level - height] code

theorem iterate_closeInnermost_frames (closed : Nat) (code : Code ι) :
    (closeInnermost^[closed] code).frames = code.frames.drop closed := by
  induction closed generalizing code with
  | zero => rfl
  | succ closed ih => rw [Function.iterate_succ_apply, ih, closeInnermost_frames, List.drop_tail]

theorem level_closeTo (height : Nat) (code : Code ι) :
    (code.closeTo height).level = min code.level height := by
  unfold closeTo level
  rw [iterate_closeInnermost_frames, List.length_drop]
  omega

theorem closeTo_of_level_le {height : Nat} {code : Code ι} (h : code.level ≤ height) :
    code.closeTo height = code := by
  unfold closeTo
  rw [Nat.sub_eq_zero_of_le h]
  rfl

end Code

/-! ## Blocks of one owner -/

/-- What is left of some equal items on top of others. -/
theorem exists_of_suffix_replicate {α : Type} {item : α} {own : Nat} {left outer : List α}
    (h : left <:+ List.replicate own item ++ outer) :
    (∃ kept, left = List.replicate kept item ++ outer) ∨ left <:+ outer := by
  induction own with
  | zero => exact Or.inr h
  | succ own ih =>
    rw [List.replicate_succ, List.cons_append, List.suffix_cons_iff] at h
    rcases h with rfl | h
    · exact Or.inl ⟨own + 1, rfl⟩
    · exact ih h

namespace Code

variable [DecidableEq ι] {code : Code ι} {owner : ι} {outer : List (Option ι)} {own : Nat}

/-- **An owner has a block open if the stack is higher** than what lies below the blocks of the owner. -/
theorem owns_eq_of_suffix (h : code.frames <:+ List.replicate own (some owner) ++ outer)
    (howner : some owner ∉ outer) : code.owns owner = decide (outer.length < code.level) := by
  unfold level
  rcases exists_of_suffix_replicate h with ⟨kept, hkept⟩ | hsuffix
  · have howns : code.owns owner = decide (0 < kept) := by
      have hbase : (outer.any fun frame => decide (frame = some owner)) = false := by
        rw [List.any_eq_false]
        intro frame hframe hown
        exact howner (of_decide_eq_true hown ▸ hframe)
      unfold owns
      rw [hkept, List.any_append, hbase, Bool.or_false]
      cases kept <;> simp [List.replicate_succ]
    rw [howns, hkept, List.length_append, List.length_replicate]
    simp
  · have hlength := hsuffix.length_le
    rw [owns_of_not_mem fun hmem => howner (hsuffix.subset hmem), eq_comm, decide_eq_false_iff_not]
    omega

/-- **To close the blocks of an owner is to close down to what lies below them.** -/
theorem closeOwned_eq_closeTo (h : code.frames <:+ List.replicate own (some owner) ++ outer)
    (howner : some owner ∉ outer) : code.closeOwned owner = code.closeTo outer.length := by
  have hclosed : (code.frames.takeWhile fun frame => decide (frame = some owner)).length =
      code.level - outer.length := by
    unfold level
    rcases exists_of_suffix_replicate h with ⟨kept, hkept⟩ | hsuffix
    · rw [hkept, List.takeWhile_append_of_pos (by simp), takeWhile_of_not_mem howner]
      simp
    · have hlength := hsuffix.length_le
      rw [takeWhile_of_not_mem fun hmem => howner (hsuffix.subset hmem), List.length_nil]
      omega
  unfold closeOwned closeTo
  rw [List.foldl_const, hclosed]

end Code

/-! ## Changes that are not noticed -/

/-- A change to code that goes along with all operations, but for those that close the blocks of an
owner. Operations on the changed code name other owners. -/
structure Unnoticed [DecidableEq ι] [DecidableEq κ] (f : ι → κ) (carry : Code ι → Code κ) : Prop where
  level : ∀ code, (carry code).level = code.level
  counter : ∀ code, (carry code).counter = code.counter
  apply : ∀ (edit : Edit ι) (code : Code ι), (∀ owner, edit ≠ .close (some owner)) →
    (carry code).apply (edit.rename f) = carry (code.apply edit)

namespace Unnoticed

variable [DecidableEq ι] [DecidableEq κ] {f : ι → κ} {carry : Code ι → Code κ}

theorem applyAll (h : Unnoticed f carry) {edits : List (Edit ι)}
    (hedits : ∀ edit ∈ edits, ∀ owner, edit ≠ .close (some owner)) (code : Code ι) :
    (carry code).applyAll (edits.map (Edit.rename f)) = carry (code.applyAll edits) := by
  induction edits generalizing code with
  | nil => rfl
  | cons edit edits ih =>
    obtain ⟨hedit, hrest⟩ := List.forall_mem_cons.1 hedits
    rw [List.map_cons, Code.applyAll_cons, h.apply edit code hedit, ih hrest, Code.applyAll_cons]

theorem closeInnermost (h : Unnoticed f carry) (code : Code ι) :
    (carry code).closeInnermost = carry code.closeInnermost :=
  h.apply (.close none) code nofun

theorem closeTo (h : Unnoticed f carry) (height : Nat) (code : Code ι) :
    (carry code).closeTo height = carry (code.closeTo height) := by
  have hiterate : Function.Semiconj carry Code.closeInnermost Code.closeInnermost :=
    fun code => (h.closeInnermost code).symm
  unfold Code.closeTo
  rw [h.level]
  exact (hiterate.iterate_right _ code).symm

variable {α : Type} {emission : α → Emission ι} {emission' : α → Emission κ}

theorem spliceBranch (h : Unnoticed f carry) {branch : Option α}
    (hrun : ∀ a, branch = some a → ∀ seed, (emission' a).run seed = (emission a).run seed)
    (code : Code ι) :
    spliceBranch (branch.map emission') (carry code) =
      carry (spliceBranch (branch.map emission) code) := by
  cases branch with
  | none => rfl
  | some a =>
    have hsplice := h.apply (.splice ((emission a).run code.counter)) code nofun
    have hfragment : (emission' a).run (carry code).counter = (emission a).run code.counter := by
      rw [h.counter, hrun a rfl]
    exact (congrArg (Code.splice · (carry code)) hfragment).trans hsplice

/-- An await block, whose branches come out the same as runs of their own. -/
theorem awaitBlock (h : Unnoticed f carry) (read : Reading) (node : Node) {below : List (Slot × List α)}
    (hrun : ∀ a ∈ below.flatMap Prod.snd, ∀ seed, (emission' a).run seed = (emission a).run seed)
    (code : Code ι) :
    awaitBlock read node (mapBelow emission' below) (carry code) =
      carry (awaitBlock read node (mapBelow emission below) code) := by
  have hopen : ∀ header (code : Code ι),
      (carry code).openBlock header none = carry (code.openBlock header none) :=
    fun header code => h.apply (.openBlock header none) code nofun
  have happend : ∀ text (code : Code ι), (carry code).append text = carry (code.append text) :=
    fun text code => h.apply (.append text) code nofun
  have hfirst : ∀ slot (code : Code ι),
      TemplateCode.spliceBranch ((firstIn slot below).map emission') (carry code) =
        carry (TemplateCode.spliceBranch ((firstIn slot below).map emission) code) :=
    fun slot => h.spliceBranch fun a ha => hrun a (mem_of_firstIn ha)
  unfold TemplateCode.awaitBlock awaitSteps
  rw [firstIn_mapBelow, firstIn_mapBelow, catchBranch_mapBelow, firstIn_mapBelow, firstIn_mapBelow,
    catchBranch_mapBelow]
  cases hbranch : catchBranch node below with
  | none => simp [AwaitStep.run, Code.apply, hopen, hfirst, happend, h.closeInnermost]
  | some a =>
    have hcatch : ∀ code : Code ι, TemplateCode.spliceBranch (some (emission' a)) (carry code) =
        carry (TemplateCode.spliceBranch (some (emission a)) code) :=
      h.spliceBranch fun a' ha' => hrun a' (mem_of_catchBranch (hbranch.trans ha'))
    simp [AwaitStep.run, Code.apply, hopen, hfirst, happend, hcatch, h.closeInnermost]

end Unnoticed

theorem unnoticed_forget [DecidableEq ι] : Unnoticed (fun _ : ι => ()) Code.forget where
  level _ := List.length_map ..
  counter _ := rfl
  apply _ _ hedit := Code.apply_rename_of _ fun owner hclose => (hedit owner hclose).elim

/-! ## The effect of a tree -/

/-- The effect of a node on code without owners. Of its parent the kind is known, and the height of what
lies below the blocks of the parent. -/
abbrev Effect := Option (Parent Nat) → Code Unit → Code Unit

/-- Whether a node goes on the chain of conditions of its parent: the parent is an alternative, and the
stack is no higher than what lies below the blocks of the parent. -/
def continuesChain (parent : Option (Parent Nat)) (code : Code Unit) : Bool :=
  match parent with
  | some parent => parent.kind = .elseBlock && code.level ≤ parent.owner
  | none => false

namespace Node

/-- The operations with which a node begins. -/
def entering (read : Reading) (node : Node) (parent : Option (Parent Nat)) (code : Code Unit) :
    List (Edit Unit) :=
  opening read node () (parent.map Parent.kind) (continuesChain parent code)

/-- How much of the stack a node keeps when it is entered. -/
def kept (read : Reading) (node : Node) (parent : Option (Parent Nat)) (code : Code Unit) : Nat :=
  code.level - (node.entering read parent code).countP Edit.closesAny

end Node

/-- The effect of a node, given the effects of the nodes below. -/
def effectNode (read : Reading) (node : Node) (below : List (Slot × List Effect)) : Effect :=
  fun parent code =>
    if node.kind = .awaitBlock then
      awaitBlock read node (mapBelow (fun effect _ => effect none) below) code
    else
      (((walked below).map Prod.snd).foldl
        (fun code' effect => effect (some ⟨node.kind, node.kept read parent code⟩) code')
        (code.applyAll (node.entering read parent code))).closeTo (node.kept read parent code)

namespace Node

/-- The effect of a tree on code without owners. -/
def effect (read : Reading) (root : Node) : Effect :=
  root.fold (effectNode read)

theorem effect_eq (read : Reading) (node : Node) :
    node.effect read =
      effectNode read node
        (node.fields.map fun field => (field.slot, field.nodes.map (effect read))) :=
  fold_eq _ node

theorem effect_walk (read : Reading) {node : Node} (h : node.kind ≠ .awaitBlock)
    (parent : Option (Parent Nat)) (code : Code Unit) :
    node.effect read parent code =
      (node.content.foldl
        (fun code' below => below.effect read (some ⟨node.kind, node.kept read parent code⟩) code')
        (code.applyAll (node.entering read parent code))).closeTo (node.kept read parent code) := by
  rw [effect_eq]
  unfold effectNode
  rw [if_neg h, map_walked_fields, List.foldl_map]

theorem effect_await (read : Reading) {node : Node} (h : node.kind = .awaitBlock) (here : Position)
    (parent : Option (Parent Nat)) (code : Code Unit) :
    node.effect read parent code =
      awaitBlock read node (mapBelow (fun part _ => part.2.effect read none) (node.parts here)) code := by
  rw [effect_eq, node.map_fields here]
  unfold effectNode
  rw [if_pos h, mapBelow_mapBelow]

end Node

/-! ## Entering a node -/

variable [DecidableEq ι]

omit [DecidableEq ι] in
theorem close_some_not_mem_opening {read : Reading} {node : Node} {owner : ι} {parent : Option Kind}
    {chained : Bool} {edit : Edit ι} (hedit : edit ∈ opening read node owner parent chained)
    (holder : ι) : edit ≠ .close (some holder) := by
  obtain ⟨closed, writes, hopening, hwrites, -⟩ := opening_shape read node owner parent chained
  rintro rfl
  rw [hopening, List.mem_append] at hedit
  rcases hedit with hedit | hedit
  · cases List.eq_of_mem_replicate hedit
  · exact hwrites _ hedit

omit [DecidableEq ι] in
theorem countP_closesAny_rename (f : ι → κ) (edits : List (Edit ι)) :
    (edits.map (Edit.rename f)).countP Edit.closesAny = edits.countP Edit.closesAny := by
  rw [List.countP_map]
  refine List.countP_congr fun edit _ => ?_
  cases edit with
  | close owner => cases owner <;> rfl
  | _ => rfl

omit [DecidableEq ι] in
theorem countP_closesAny_opening {read : Reading} {node : Node} {owner : ι} {parent : Option Kind}
    {chained : Bool} {closed : Nat} {writes : List (Edit ι)}
    (hopening : opening read node owner parent chained = List.replicate closed (.close none) ++ writes)
    (hwrites : ∀ edit ∈ writes, edit.WritesFor owner) :
    (opening read node owner parent chained).countP Edit.closesAny = closed := by
  have hnone : writes.countP Edit.closesAny = 0 := by
    rw [List.countP_eq_zero]
    intro edit hedit hcloses
    have hwrite := hwrites edit hedit
    cases edit with
    | close holder => exact hwrite
    | _ => cases hcloses
  rw [hopening, List.countP_append, hnone, Nat.add_zero, List.countP_replicate]
  exact if_pos rfl

/-- **Entering a node without owners**: it does to the code what it does with owners, and it keeps what
lies below its own blocks. -/
theorem entered_forget (read : Reading) (node : Node) (owner : ι) {parent : Option (Parent ι)}
    {parent' : Option (Parent Nat)} {code : Code ι}
    (hkind : parent.map Parent.kind = parent'.map Parent.kind)
    (hchain : isChained parent code = continuesChain parent' code.forget) :
    ∃ own outer, outer <:+ code.frames ∧
      (code.applyAll
        (opening read node owner (parent.map Parent.kind) (isChained parent code))).frames =
          List.replicate own (some owner) ++ outer ∧
      code.forget.applyAll (node.entering read parent' code.forget) =
        (code.applyAll
          (opening read node owner (parent.map Parent.kind) (isChained parent code))).forget ∧
      node.kept read parent' code.forget = outer.length := by
  obtain ⟨own, closed, writes, hopening, hwrites, -, hframes⟩ :=
    opening_frames read node owner (parent.map Parent.kind) (isChained parent code) code
  have hentering : node.entering read parent' code.forget =
      (opening read node owner (parent.map Parent.kind) (isChained parent code)).map
        (Edit.rename fun _ => ()) := by
    unfold Node.entering
    rw [← hkind, ← hchain, ← opening_rename]
  refine ⟨own, code.frames.drop closed, List.drop_suffix _ _, hframes, ?_, ?_⟩
  · rw [hentering]
    exact unnoticed_forget.applyAll (fun _ => close_some_not_mem_opening) code
  · unfold Node.kept
    rw [hentering, countP_closesAny_rename, countP_closesAny_opening hopening hwrites,
      unnoticed_forget.level, List.length_drop]
    rfl

/-- A parent has no block open if the stack is no higher than what lies below the blocks of the parent. -/
theorem isChained_eq_continuesChain {kind : Kind} {owner : ι} {own : Nat} {outer : List (Option ι)}
    {code : Code ι} (h : code.frames <:+ List.replicate own (some owner) ++ outer)
    (howner : some owner ∉ outer) :
    isChained (some ⟨kind, owner⟩) code = continuesChain (some ⟨kind, outer.length⟩) code.forget := by
  unfold isChained continuesChain
  dsimp only
  rw [Code.owns_eq_of_suffix h howner, unnoticed_forget.level, ← decide_not]
  simp only [Nat.not_lt]

/-- The nodes in a node, done without owners, if each of them is. -/
theorem forget_foldl_emit {read : Reading} {identify : Position → ι} {P : Code ι → Prop}
    {parent : Parent ι} {parent' : Parent Nat} {visits : List (Slot × Position × Node)}
    (h : ∀ visit ∈ visits, ∀ code, P code →
      P (emit read identify visit.2.2 visit.2.1 (some parent) code) ∧
      (emit read identify visit.2.2 visit.2.1 (some parent) code).forget =
        visit.2.2.effect read (some parent') code.forget) {code : Code ι} (hcode : P code) :
    P (visits.foldl
      (fun code visit => emit read identify visit.2.2 visit.2.1 (some parent) code) code) ∧
    (visits.foldl
        (fun code visit => emit read identify visit.2.2 visit.2.1 (some parent) code) code).forget =
      (visits.map fun visit => visit.2.2).foldl
        (fun code below => below.effect read (some parent') code) code.forget := by
  induction visits generalizing code with
  | nil => exact ⟨hcode, rfl⟩
  | cons visit visits ih =>
    obtain ⟨hvisit, hvisits⟩ := List.forall_mem_cons.1 h
    obtain ⟨hnext, hforget⟩ := hvisit code hcode
    rw [List.foldl_cons, List.map_cons, List.foldl_cons, ← hforget]
    exact ih hvisits hnext

/-- **A tree does without owners what it does with them.** The parent is described by the height of what
lies below its blocks, and it is enough that this tells whether a chain of conditions goes on. -/
theorem forget_emit (read : Reading) (identify : Position → ι) (root : Node) (here : Position)
    {parent : Option (Parent ι)} {parent' : Option (Parent Nat)} {code : Code ι}
    (hapart : root.Apart identify here code.frames)
    (hkind : parent.map Parent.kind = parent'.map Parent.kind)
    (hchain : isChained parent code = continuesChain parent' code.forget) :
    (emit read identify root here parent code).forget = root.effect read parent' code.forget := by
  induction here, root using Node.located_induction generalizing parent parent' code with
  | step here node ih =>
    by_cases hawait : node.kind = .awaitBlock
    · have hforeign := hapart.here_foreign
      rw [← awaitBlock_frames read node] at hforeign
      rw [emit_await read identify here hawait, Node.effect_await read hawait here,
        Code.closeOwned_of_not_mem _ hforeign]
      refine (unnoticed_forget.awaitBlock read node (fun part hpart seed => ?_) code).symm
      -- a run of its own starts without open blocks
      have hstart : part.2.Apart identify part.1 (Code.start seed : Code ι).frames :=
        ⟨Node.injOn_part hapart.injective hpart, by simp [Code.start]⟩
      have hrun : (emit read identify part.2 part.1 none (Code.start seed)).forget =
          part.2.effect read none (Code.start seed) := ih part hpart hstart rfl rfl
      exact congrArg Code.fragment hrun.symm
    · rw [emit_walk read identify here hawait, Node.effect_walk read hawait]
      obtain ⟨own, outer, houter, hframes, hentered, hkept⟩ :=
        entered_forget read node (identify here) hkind hchain
      have hown : some (identify here) ∉ outer := fun hmem => hapart.here_foreign (houter.subset hmem)
      rw [hentered, hkept, ← node.map_walked_parts here]
      generalize opening read node (identify here) (parent.map Parent.kind) (isChained parent code) =
        entered at hframes ⊢
      -- each node of the content is met with a part of what the opening has left
      have hvisits : ∀ visit ∈ walked (node.parts here), ∀ code' : Code ι,
          code'.frames <:+ List.replicate own (some (identify here)) ++ outer →
          (emit read identify visit.2.2 visit.2.1 (some ⟨node.kind, identify here⟩) code').frames <:+
              List.replicate own (some (identify here)) ++ outer ∧
            (emit read identify visit.2.2 visit.2.1 (some ⟨node.kind, identify here⟩) code').forget =
              visit.2.2.effect read (some ⟨node.kind, outer.length⟩) code'.forget := by
        intro visit hvisit code' hcode'
        have hpart := snd_mem_of_mem_walked hvisit
        have hpartApart := hapart.part_of_suffix hpart hcode' houter
        have hsuffix := emit_frames_suffix read identify _ _ (some ⟨node.kind, identify here⟩) code'
          hpartApart
        refine ⟨hsuffix.trans hcode', ?_⟩
        exact ih visit.2 hpart hpartApart rfl (isChained_eq_continuesChain hcode' hown)
      have hstart : (code.applyAll entered).frames <:+
          List.replicate own (some (identify here)) ++ outer := hframes ▸ List.suffix_rfl
      obtain ⟨hleft, hforget⟩ := forget_foldl_emit
        (P := fun code' => code'.frames <:+ List.replicate own (some (identify here)) ++ outer)
        hvisits hstart
      rw [Code.closeOwned_eq_closeTo hleft hown, ← unnoticed_forget.closeTo, hforget]

/-- **The code of a tree** is what the tree writes without owners. -/
theorem fragment_eq_effect (source : String) (root : Node) (seed : UInt64) :
    root.fragment source seed =
      (root.effect (Span.readIn source) none (Code.start seed)).fragment := by
  have hforget : (emit (Span.readIn source) id root [] none (Code.start seed)).forget =
      root.effect (Span.readIn source) none (Code.start seed) :=
    forget_emit (Span.readIn source) id root [] (Node.Apart.of_id root []) rfl rfl
  exact congrArg Code.fragment hforget

end TemplateCode
