import TemplateCode.Proofs.Frames

/-!
# Indentation

The lines of a run open and close blocks. Counting them up and down gives the depth at every line,
and this is where the line is indented to.

* `Nested`: lines that lead from one depth to another, each at the depth it is met with.
* `Code.Extends`: what is written later leads from the level before to the level after.
* `Indented`: what is said of all lines of a run, in terms of the running depth alone.
* `fragment_indented`: the code of every tree is indented so.
-/

namespace TemplateCode

namespace Role

/-- By how much a line changes the depth. -/
def change : Role → Int
  | opener | scope => 1
  | closer => -1
  | plain | declaration => 0

/-- Whether a line begins a block. -/
def opens : Role → Bool
  | opener | scope => true
  | closer | plain | declaration => false

end Role

/-- The running depth after some lines. -/
def depthAfter (lines : List Line) : Int :=
  lines.foldl (fun depth line => depth + line.role.change) 0

theorem foldl_change (lines : List Line) (depth : Int) :
    lines.foldl (fun depth line => depth + line.role.change) depth = depth + depthAfter lines := by
  unfold depthAfter
  induction lines generalizing depth with
  | nil => simp
  | cons line lines ih =>
    rw [List.foldl_cons, ih, List.foldl_cons, ih (0 + line.role.change)]
    omega

theorem depthAfter_cons (line : Line) (lines : List Line) :
    depthAfter (line :: lines) = line.role.change + depthAfter lines := by
  rw [depthAfter, List.foldl_cons, foldl_change, Int.zero_add]

/-! ## Nested lines -/

/-- Lines that lead from one depth to another. A statement stands at the depth it is met with, and so
does a line that begins a block; a line that ends a block stands one level further out. -/
inductive Nested : Nat → List Line → Nat → Prop
  | nil (depth : Nat) : Nested depth [] depth
  | stay {role : Role} {text : String} {depth last : Nat} {lines : List Line} (hrole : role.change = 0)
      (htext : text ≠ "") (h : Nested depth lines last) :
      Nested depth (⟨role, depth, text⟩ :: lines) last
  | enter {role : Role} {header : String} {depth last : Nat} {lines : List Line}
      (hrole : role.opens = true) (h : Nested (depth + 1) lines last) :
      Nested depth (⟨role, depth, header ++ " \x7b"⟩ :: lines) last
  | leave {depth last : Nat} {lines : List Line} (h : Nested depth lines last) :
      Nested (depth + 1) (⟨.closer, depth, "\x7d"⟩ :: lines) last

namespace Nested

variable {first mid last : Nat} {lines more : List Line}

theorem append (h : Nested first lines mid) (h' : Nested mid more last) :
    Nested first (lines ++ more) last := by
  induction h with
  | nil => exact h'
  | stay hrole htext _ ih => exact .stay hrole htext (ih h')
  | enter hrole _ ih => exact .enter hrole (ih h')
  | leave _ ih => exact .leave (ih h')

/-- Lines that are moved further in as a whole stay nested. -/
theorem nest (level : Nat) (h : Nested first lines last) :
    Nested (level + first) (lines.map (Line.nest level)) (level + last) := by
  induction h with
  | nil => exact .nil _
  | stay hrole htext _ ih => exact .stay hrole htext ih
  | enter hrole _ ih => exact .enter hrole ih
  | leave _ ih => exact .leave ih

theorem text_ne (h : Nested first lines last) : ∀ line ∈ lines, line.text ≠ "" := by
  induction h with
  | nil => simp
  | stay hrole htext _ ih => exact List.forall_mem_cons.2 ⟨htext, ih⟩
  | enter hrole _ ih => exact List.forall_mem_cons.2 ⟨by simp, ih⟩
  | leave _ ih => exact List.forall_mem_cons.2 ⟨by simp, ih⟩

/-- No line is empty, so that none is left out when the lines are spliced in. -/
theorem filter_eq (h : Nested first lines last) :
    (lines.filter fun line => !line.isEmpty) = lines := by
  rw [List.filter_eq_self]
  intro line hline
  simp [Line.isEmpty, h.text_ne line hline]

theorem last_eq (h : Nested first lines last) : (last : Int) = first + depthAfter lines := by
  induction h with
  | nil => simp [depthAfter]
  | stay hrole _ _ ih => rw [ih, depthAfter_cons, hrole]; omega
  | @enter role _ _ _ _ hrole _ ih =>
    have hchange : role.change = 1 := by cases role <;> simp_all [Role.opens, Role.change]
    rw [ih, depthAfter_cons, hchange]
    omega
  | leave _ ih => rw [ih, depthAfter_cons, Role.change]; omega

theorem split {before after : List Line} (h : Nested first (before ++ after) last) :
    ∃ mid, Nested first before mid ∧ Nested mid after last := by
  induction before generalizing first with
  | nil => exact ⟨first, .nil _, h⟩
  | cons line before ih =>
    cases h with
    | stay hrole htext h =>
      obtain ⟨mid, hbefore, hafter⟩ := ih h
      exact ⟨mid, .stay hrole htext hbefore, hafter⟩
    | enter hrole h =>
      obtain ⟨mid, hbefore, hafter⟩ := ih h
      exact ⟨mid, .enter hrole hbefore, hafter⟩
    | leave h =>
      obtain ⟨mid, hbefore, hafter⟩ := ih h
      exact ⟨mid, .leave hbefore, hafter⟩

end Nested

/-! ## Code under construction -/

variable {ι : Type}

namespace Code

/-- The code has grown by lines that lead from the level it had to the level it has now. -/
def Extends (before after : Code ι) : Prop :=
  ∃ lines, after.lines = before.lines ++ lines ∧ Nested before.level lines after.level

theorem Extends.refl (code : Code ι) : code.Extends code :=
  ⟨[], by simp, .nil _⟩

theorem Extends.trans {before mid after : Code ι} (h : before.Extends mid) (h' : mid.Extends after) :
    before.Extends after := by
  obtain ⟨lines, hlines, hnested⟩ := h
  obtain ⟨more, hmore, hnested'⟩ := h'
  exact ⟨lines ++ more, by rw [hmore, hlines, List.append_assoc], hnested.append hnested'⟩

theorem extends_write {role : Role} (hrole : role.change = 0) (text : String) (code : Code ι) :
    code.Extends (code.write role text) := by
  refine ⟨_, lines_write role text code, ?_⟩
  have hlevel : (code.write role text).level = code.level := by
    simp only [level, write_frames]
  rw [hlevel]
  split
  · exact .nil _
  · exact .stay hrole ‹_› (.nil _)

theorem extends_append (text : String) (code : Code ι) : code.Extends (code.append text) :=
  extends_write rfl text code

theorem extends_declare (initializer : String) (code : Code ι) :
    code.Extends (code.declare initializer) := by
  unfold declare
  split
  · exact .refl code
  · exact extends_write rfl _ code.count

theorem extends_openWith {role : Role} (hrole : role.opens = true) (header : String)
    (owner : Option ι) (code : Code ι) : code.Extends (code.openWith role header owner) := by
  have hlines := lines_write role (header ++ " \x7b") code
  rw [if_neg (by simp)] at hlines
  refine ⟨_, hlines, ?_⟩
  have hlevel : (code.openWith role header owner).level = code.level + 1 := by
    simp only [level, openWith_frames, List.length_cons]
  rw [hlevel]
  exact .enter hrole (.nil _)

theorem extends_openBlock (header : String) (owner : Option ι) (code : Code ι) :
    code.Extends (code.openBlock header owner) :=
  extends_openWith rfl header owner code

theorem extends_closeInnermost (code : Code ι) : code.Extends code.closeInnermost := by
  unfold closeInnermost
  split
  · exact .refl code
  · rename_i frame outer hframes
    have hlines := lines_write .closer "\x7d" { code with frames := outer }
    rw [if_neg (by simp)] at hlines
    refine ⟨_, hlines, ?_⟩
    simp only [level, write_frames, hframes, List.length_cons]
    exact .leave (.nil _)

theorem extends_closeOwned [DecidableEq ι] (owner : ι) (code : Code ι) :
    code.Extends (code.closeOwned owner) := by
  unfold closeOwned
  refine List.foldlRecOn (motive := code.Extends) _ _ (.refl code) ?_
  intro code' h frame _
  exact h.trans (extends_closeInnermost code')

theorem extends_splice {fragment : Fragment} (h : Nested 0 fragment.lines 0) (code : Code ι) :
    code.Extends (code.splice fragment) := by
  refine ⟨_, lines_splice fragment code, ?_⟩
  rw [h.filter_eq]
  exact h.nest code.level

end Code

variable [DecidableEq ι]

/-- **One operation**: whatever it is, it writes nested lines, as long as what it splices in is
nested. -/
theorem Code.extends_apply (code : Code ι) (edit : Edit ι)
    (h : ∀ fragment, edit = .splice fragment → Nested 0 fragment.lines 0) :
    code.Extends (code.apply edit) := by
  cases edit with
  | append text => exact extends_append text code
  | declare initializer => exact extends_declare initializer code
  | openBlock header owner => exact extends_openBlock header owner code
  | openScope params owner => exact extends_openWith rfl _ owner code.count
  | close owner =>
    cases owner with
    | none => exact extends_closeInnermost code
    | some owner => exact extends_closeOwned owner code
  | splice fragment => exact extends_splice (h fragment rfl) code

theorem Code.extends_applyAll (code : Code ι) (edits : List (Edit ι))
    (h : ∀ fragment, .splice fragment ∈ edits → Nested 0 fragment.lines 0) :
    code.Extends (code.applyAll edits) := by
  refine List.foldlRecOn (motive := code.Extends) _ _ (.refl code) ?_
  intro code' hcode edit hedit
  exact hcode.trans (extends_apply code' edit fun fragment hfragment => h fragment (hfragment ▸ hedit))

omit [DecidableEq ι] in
theorem splice_not_mem_opening (read : Reading) (node : Node) (owner : ι) (parent : Option Kind)
    (chained : Bool) (fragment : Fragment) :
    .splice fragment ∉ opening read node owner parent chained := by
  obtain ⟨closed, writes, hopening, hwrites, -⟩ := opening_shape read node owner parent chained
  intro h
  rw [hopening, List.mem_append] at h
  rcases h with h | h
  · cases List.eq_of_mem_replicate h
  · exact hwrites _ h

omit [DecidableEq ι] in
theorem extends_spliceBranch {branch : Option (Emission ι)}
    (h : ∀ emission, branch = some emission → ∀ seed, Nested 0 (emission.run seed).lines 0)
    (code : Code ι) : code.Extends (spliceBranch branch code) := by
  cases branch with
  | none => exact .refl code
  | some emission => exact Code.extends_splice (h emission rfl code.counter) code

theorem extends_awaitBlock (read : Reading) (node : Node) {below : List (Slot × List (Emission ι))}
    (h : ∀ emission ∈ below.flatMap Prod.snd, ∀ seed, Nested 0 (emission.run seed).lines 0)
    (code : Code ι) : code.Extends (awaitBlock read node below code) := by
  refine List.foldlRecOn (motive := code.Extends) _ _ (.refl code) ?_
  intro code' hcode step hstep
  refine hcode.trans ?_
  rcases awaitSteps_cases hstep with ⟨edit, hplain, rfl⟩ | ⟨branch, -, rfl⟩
  · exact Code.extends_apply code' edit fun fragment hsplice => by cases hsplice ▸ hplain
  · exact extends_spliceBranch
      (fun emission hemission => h emission (mem_of_mem_awaitSteps (hemission ▸ hstep))) code'

/-- The lines of a run of its own lead from depth zero to depth zero, since no block is left open. -/
theorem nested_run {read : Reading} {identify : Position → ι} {root : Node} {here : Position}
    (hinj : Set.InjOn identify { p | p ∈ root.positions here })
    (hextends : ∀ parent code, Code.Extends code (emit read identify root here parent code))
    (seed : UInt64) : Nested 0 ((emit read identify root here).run seed).lines 0 := by
  obtain ⟨lines, hlines, hnested⟩ := hextends none (Code.start seed)
  have hframes := emit_frames_nil read identify root here none seed ⟨hinj, by simp⟩
  unfold Code.level at hnested
  rw [hframes] at hnested
  have hrun : ((emit read identify root here).run seed).lines = lines := hlines
  rw [hrun]
  exact hnested

/-- **A whole tree** writes nested lines, from the level it is met with to the level it leaves. -/
theorem extends_emit (read : Reading) (identify : Position → ι) (root : Node) (here : Position)
    (hinj : Set.InjOn identify { p | p ∈ root.positions here }) (parent : Option (Parent ι))
    (code : Code ι) : code.Extends (emit read identify root here parent code) := by
  induction here, root using Node.located_induction generalizing parent code with
  | step here node ih =>
    by_cases hkind : node.kind = .awaitBlock
    · rw [emit_await read identify here hkind]
      refine (extends_awaitBlock read node ?_ code).trans (Code.extends_closeOwned _ _)
      -- a branch is a run of its own, which ends at the depth it starts with
      intro emission hemission seed
      rw [flatMap_mapBelow, List.mem_map] at hemission
      obtain ⟨part, hmem, rfl⟩ := hemission
      have hpart := Node.injOn_part hinj hmem
      exact nested_run hpart (ih part hmem hpart) seed
    · rw [emit_walk read identify here hkind]
      refine .trans ?_ (Code.extends_closeOwned _ _)
      refine List.foldlRecOn (motive := code.Extends) _ _ ?_ ?_
      · exact Code.extends_applyAll code _ fun fragment h =>
          (splice_not_mem_opening _ _ _ _ _ fragment h).elim
      · intro code' hcode visit hvisit
        have hmem := snd_mem_of_mem_walked hvisit
        exact hcode.trans (ih visit.2 hmem (Node.injOn_part hinj hmem) _ code')

/-! ## The code of a tree -/

/-- Lines that are indented by the running depth, which goes up by one where a block begins and down
by one where a block ends. -/
structure Indented (lines : List Line) : Prop where
  /-- The running depth is never negative. -/
  nonneg : ∀ before after, lines = before ++ after → 0 ≤ depthAfter before
  /-- All blocks are closed. -/
  closed : depthAfter lines = 0
  closer_text : ∀ line ∈ lines, line.role = .closer → line.text = "\x7d"
  opener_text : ∀ line ∈ lines, line.role.opens = true → ∃ header, line.text = header ++ " \x7b"
  /-- A line is printed after four blanks per level: the depth before the line, except that the end of
  a block counts from the depth after it. -/
  render : ∀ before line after, lines = before ++ line :: after →
    ∃ depth : Nat,
      (depth : Int) =
        (if line.role = .closer then depthAfter (before ++ [line]) else depthAfter before) ∧
      line.render = String.ofList (List.replicate (4 * depth) ' ') ++ line.text

theorem Nested.indented {lines : List Line} (h : Nested 0 lines 0) : Indented lines where
  nonneg := by
    rintro before after rfl
    obtain ⟨mid, hbefore, -⟩ := h.split
    have := hbefore.last_eq
    omega
  closed := by
    have := h.last_eq
    omega
  closer_text := by
    intro line hline hrole
    obtain ⟨before, after, rfl⟩ := List.append_of_mem hline
    obtain ⟨mid, -, hafter⟩ := h.split
    cases hafter with
    | stay hchange _ _ => subst hrole; cases hchange
    | enter hopens _ => subst hrole; cases hopens
    | leave _ => rfl
  opener_text := by
    intro line hline hrole
    obtain ⟨before, after, rfl⟩ := List.append_of_mem hline
    obtain ⟨mid, -, hafter⟩ := h.split
    cases hafter with
    | @stay role _ _ _ _ hchange _ _ => cases role <;> simp_all [Role.opens, Role.change]
    | enter _ _ => exact ⟨_, rfl⟩
    | leave _ => cases hrole
  render := by
    rintro before line after rfl
    obtain ⟨mid, hbefore, hafter⟩ := h.split
    have hmid := hbefore.last_eq
    cases hafter with
    | @stay role _ _ _ _ hchange _ _ =>
      have hrole : role ≠ .closer := by rintro rfl; cases hchange
      exact ⟨mid, by rw [if_neg hrole]; omega, rfl⟩
    | @enter role _ _ _ _ hopens _ =>
      have hrole : role ≠ .closer := by rintro rfl; cases hopens
      exact ⟨mid, by rw [if_neg hrole]; omega, rfl⟩
    | @leave depth _ _ _ =>
      have hdepth := (hbefore.append (.leave (.nil depth))).last_eq
      exact ⟨depth, by rw [if_pos rfl]; omega, rfl⟩

theorem nested_fragment (source : String) (root : Node) (seed : UInt64) :
    Nested 0 (root.fragment source seed).lines 0 :=
  nested_run (Set.injOn_id _) (extends_emit _ _ _ _ (Set.injOn_id _)) seed

/-- **The code of every tree is indented by the running depth**, whatever the source, the numbers of
its names and the shape of the tree, and no block is open when the walk ends. -/
theorem fragment_indented (source : String) (root : Node) (seed : UInt64) :
    Indented (root.fragment source seed).lines ∧
      (emit (Span.readIn source) id root [] none (Code.start seed)).frames = [] :=
  ⟨(nested_fragment source root seed).indented,
    emit_frames_nil _ _ _ _ _ _ (Node.Apart.of_id root [])⟩

end TemplateCode
