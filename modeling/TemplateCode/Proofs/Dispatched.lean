import TemplateCode.Proofs.Record
import TemplateCode.Proofs.Skeleton

/-!
# The nodes that code is generated for

Code is generated by many walks: a walk stops at an await block, and each branch of the block is walked by a
run of its own, in an order that is not that of the slots. The record of the nodes that all these runs dispatch
shows that none is dispatched twice, and that a listing, which is a single walk, has a line for each of them.

* `Audited.dispatched_emit`: what is in the record is `Node.dispatchedFrom`.
* `Node.nodup_dispatchedFrom`: no node is in the record twice.
* `Node.mem_walkAt_of_dispatched`: a walk that skips nothing enters all of them.
* `Node.dispatchedFrom_eq_entered`: without await blocks the record is this walk.
* `Node.sublist_begins`, `Node.Unbroken.begins_eq`: the lines of the text that begin nodes.
* `dispatched_listed`: how the record and the listing of a tree compare.
-/

namespace TemplateCode

/-! ## What is in the record -/

/-- What a tree at a position adds to the record: its root, and then what its branches add, if it is an await
block, or what is walked in it adds. -/
def Node.dispatchedFrom (root : Node) : Position → List Dispatch :=
  root.fold fun node below here => (here, node) :: (visits node (locate here below)).flatMap Prod.snd

theorem Node.dispatchedFrom_eq (node : Node) (here : Position) :
    node.dispatchedFrom here =
      (here, node) :: (visits node (node.parts here)).flatMap fun visit =>
        visit.2.2.dispatchedFrom visit.2.1 := by
  unfold dispatchedFrom
  rw [fold_eq, locate_fields, visits_mapBelow, List.flatMap_map]

/-- Steps that are made one after the other add to the record one after the other. -/
theorem Audit.dispatched_foldl {α : Type} (step : Audit → α → Audit) (added : α → List Dispatch)
    {items : List α}
    (h : ∀ item ∈ items, ∀ audit, (step audit item).dispatched = audit.dispatched ++ added item)
    (audit : Audit) : (items.foldl step audit).dispatched = audit.dispatched ++ items.flatMap added := by
  induction items generalizing audit with
  | nil => simp
  | cons item items ih =>
    obtain ⟨hitem, hitems⟩ := List.forall_mem_cons.1 h
    rw [List.foldl_cons, ih hitems, hitem, List.flatMap_cons, List.append_assoc]

/-- **The nodes that a tree adds to the record**, wherever it is met. -/
theorem Audited.dispatched_emit (read : Reading) (node : Node) (here : Position)
    (parent : Option (Parent Position)) (audit : Audit) :
    ((emit read node here).effect parent audit).dispatched =
      audit.dispatched ++ node.dispatchedFrom here := by
  induction here, node using Node.located_induction generalizing parent audit with
  | step here node ih =>
    have hentered : (audit.enter (here, node)).dispatched = audit.dispatched ++ [(here, node)] := rfl
    rw [node.dispatchedFrom_eq, List.append_cons, ← hentered]
    by_cases hkind : node.kind = .awaitBlock
    · rw [effect_await read here hkind, Audit.dispatched_apply, visits_await hkind,
        ← flatMap_awaitSteps (ι := Position) read node (node.parts here) fun part =>
          part.2.dispatchedFrom part.1]
      refine Audit.dispatched_foldl _ _ (fun step hstep audit => ?_) _
      rcases step with operation | (_ | part)
      · exact (audit.dispatched_apply operation).trans (List.append_nil _).symm
      · exact (List.append_nil _).symm
      · exact (ih part (mem_of_mem_awaitSteps hstep) none _).trans (by simp [AwaitStep.branch?])
    · have hopening : ∀ edits : List (Edit Position),
          (edits.foldl Audit.apply (audit.enter (here, node))).dispatched =
            (audit.enter (here, node)).dispatched := by
        intro edits
        rw [Audit.dispatched_foldl Audit.apply (fun _ => []) (fun edit _ audit => by simp)]
        simp
      rw [effect_walk read here hkind, Audit.dispatched_apply, visits_walk hkind, ← hopening]
      exact Audit.dispatched_foldl _ _
        (fun visit hvisit audit => ih visit.2 (snd_mem_of_mem_walked hvisit) _ audit) _

theorem Node.dispatched_audit (source : String) (root : Node) (seed : UInt64) :
    (root.audit source seed).dispatched = root.dispatchedFrom [] :=
  Audited.dispatched_emit (Span.readIn source) root [] none { code := Code.start seed }

/-! ## Against a single walk -/

theorem mem_walked_of_firstIn {α : Type} {slot : Slot} (hslot : slot.isFragment = false)
    {below : List (Slot × List α)} {meaning : α} (h : firstIn slot below = some meaning) :
    (slot, meaning) ∈ walked below := by
  unfold firstIn at h
  split at h
  · rename_i found meanings hfound
    obtain rfl : found = slot := by simpa using List.find?_some hfound
    refine List.mem_flatMap.2 ⟨(found, meanings), List.mem_filter.2 ⟨?_, by simp [hslot]⟩, ?_⟩
    · exact List.mem_of_find?_eq_some hfound
    · exact List.mem_map_of_mem (List.mem_of_head? h)
  · cases h

theorem mem_walked_of_catchBranch {α : Type} {node : Node} {below : List (Slot × List α)} {meaning : α}
    (h : catchBranch node below = some meaning) : (Slot.catchBranch, meaning) ∈ walked below := by
  unfold catchBranch at h
  split at h
  · split at h
    · cases h
    · exact mem_walked_of_firstIn rfl h
  · cases h

/-- What is generated below a node is walked, if nothing is skipped. -/
theorem mem_walked_of_mem_visits {α : Type} {node : Node} {below : List (Slot × List α)} {visit : Slot × α}
    (h : visit ∈ visits node below) : visit ∈ walked below := by
  unfold visits branches at h
  split at h
  · simp only [List.mem_append, Option.mem_toList, Option.map_eq_some_iff] at h
    rcases h with (⟨meaning, hmeaning, rfl⟩ | ⟨meaning, hmeaning, rfl⟩) | ⟨meaning, hmeaning, rfl⟩
    · exact mem_walked_of_firstIn rfl hmeaning
    · exact mem_walked_of_firstIn rfl hmeaning
    · exact mem_walked_of_catchBranch hmeaning
  · exact h

namespace Node

variable {node : Node} {here : Position} {dispatch : Dispatch}

theorem mem_dispatchedFrom :
    dispatch ∈ node.dispatchedFrom here ↔
      dispatch = (here, node) ∨ ∃ visit ∈ visits node (node.parts here),
        dispatch ∈ visit.2.2.dispatchedFrom visit.2.1 := by
  rw [dispatchedFrom_eq, List.mem_cons, List.mem_flatMap]

/-- **Every node that is dispatched is entered by the walk** that skips nothing. -/
theorem mem_walkAt_of_dispatched (place : Option Place) (h : dispatch ∈ node.dispatchedFrom here) :
    ∃ place', (⟨.enter, dispatch.2, place', dispatch.1⟩ : Event) ∈ node.walkAt (fun _ => false) here place := by
  induction here, node using located_induction generalizing place with
  | step here node ih =>
    rcases mem_dispatchedFrom.1 h with rfl | ⟨visit, hvisit, hdispatch⟩
    · exact ⟨place, mem_walkAt.2 (Or.inl rfl)⟩
    · have hwalked := mem_walked_of_mem_visits hvisit
      obtain ⟨place', hevent⟩ :=
        ih visit.2 (snd_mem_of_mem_walked hwalked) (some ⟨node, visit.1⟩) hdispatch
      exact ⟨place', mem_walkAt.2 (Or.inr ⟨rfl, visit, hwalked, hevent⟩)⟩

theorem suffix_of_dispatched (h : dispatch ∈ node.dispatchedFrom here) : here <:+ dispatch.1 := by
  obtain ⟨place', hevent⟩ := mem_walkAt_of_dispatched none h
  exact (mem_walkAt_iff_remains.1 hevent).suffix

/-- The branches of an await block are in different fields, since their slots are different. -/
theorem pairwise_visits (node : Node) (here : Position) :
    (visits node (node.parts here)).Pairwise fun visit other => visit.2.1 ≠ other.2.1 := by
  by_cases hkind : node.kind = .awaitBlock
  · have hslots : (visits node (node.parts here)).Pairwise fun visit other => visit.1 ≠ other.1 := by
      rw [visits_await hkind]
      unfold branches
      cases firstIn .pending (node.parts here) <;> cases firstIn .thenBranch (node.parts here) <;>
        cases catchBranch node (node.parts here) <;> simp
    refine hslots.imp_of_mem fun {visit other} hvisit hother hslot hsame => hslot ?_
    obtain ⟨i, j, field, hfield, hslot, -, -, hposition⟩ :=
      mem_walked_parts.1 (mem_walked_of_mem_visits hvisit)
    obtain ⟨i', j', field', hfield', hslot', -, -, hposition'⟩ :=
      mem_walked_parts.1 (mem_walked_of_mem_visits hother)
    obtain ⟨rfl, -⟩ := Prod.mk.inj (List.cons.inj (hposition.symm.trans (hsame.trans hposition'))).1
    rw [hslot, hslot', Option.some.inj (hfield.symm.trans hfield')]
  · rw [visits_walk hkind]
    refine (node.pairwise_parts here).imp ?_
    rintro visit other ⟨step, step', hposition, hposition', hlt⟩ hsame
    obtain rfl : step = step' := (List.cons.inj (hposition.symm.trans (hsame.trans hposition'))).1
    rcases hlt with ⟨_, _, hlt⟩ | ⟨_, hlt⟩
    · exact Nat.lt_irrefl _ hlt
    · exact Nat.lt_irrefl _ hlt

/-- **No node is dispatched twice.** -/
theorem nodup_dispatchedFrom (node : Node) (here : Position) :
    ((node.dispatchedFrom here).map Prod.fst).Nodup := by
  induction here, node using located_induction with
  | step here node ih =>
    -- what is dispatched below a node stands below one of its parts
    have hbelow : ∀ visit ∈ visits node (node.parts here),
        ∀ p ∈ (visit.2.2.dispatchedFrom visit.2.1).map Prod.fst,
          ∃ step, visit.2.1 = step :: here ∧ step :: here <:+ p := by
      intro visit hvisit p hp
      obtain ⟨dispatch, hdispatch, rfl⟩ := List.mem_map.1 hp
      obtain ⟨⟨i, j, hposition⟩, -⟩ := mem_held (snd_mem_of_mem_visits hvisit)
      exact ⟨(i, j), hposition, hposition ▸ suffix_of_dispatched hdispatch⟩
    rw [dispatchedFrom_eq, List.map_cons, List.map_flatMap, List.nodup_cons, List.nodup_flatMap]
    refine ⟨fun hhere => ?_, fun visit hvisit => ih visit.2 (snd_mem_of_mem_visits hvisit), ?_⟩
    · obtain ⟨visit, hvisit, hp⟩ := List.mem_flatMap.1 hhere
      obtain ⟨step, -, hsuffix⟩ := hbelow visit hvisit here hp
      exact Event.ne_of_suffix hsuffix rfl
    · refine (node.pairwise_visits here).imp_of_mem fun {visit other} hvisit hother hne p hp hp' => hne ?_
      obtain ⟨step, hposition, hsuffix⟩ := hbelow visit hvisit p hp
      obtain ⟨step', hposition', hsuffix'⟩ := hbelow other hother p hp'
      have hsame := (List.suffix_of_suffix_length_le hsuffix hsuffix' (by simp)).eq_of_length (by simp)
      rw [hposition, hposition', hsame]

/-- The events of a walk that skips nothing with which nodes are entered. -/
def entered (root : Node) : List Event :=
  (root.walk fun _ => false).filter fun event => event.phase = .enter

/-- **Without await blocks the nodes are dispatched as a walk enters them.** -/
theorem dispatchedFrom_eq_entered (place : Option Place)
    (h : ∀ event ∈ node.walkAt (fun _ => false) here place, event.node.kind ≠ .awaitBlock) :
    node.dispatchedFrom here =
      ((node.walkAt (fun _ => false) here place).filter fun event => event.phase = .enter).map fun event =>
        (event.position, event.node) := by
  induction here, node using located_induction generalizing place with
  | step here node ih =>
    have hkind : node.kind ≠ .awaitBlock := h ⟨.enter, node, place, here⟩ (mem_walkAt.2 (Or.inl rfl))
    have hparts : ((walked (node.parts here)).flatMap fun visit => visit.2.2.dispatchedFrom visit.2.1) =
        (walked (node.parts here)).flatMap fun visit =>
          ((visit.2.2.walkAt (fun _ => false) visit.2.1 (some ⟨node, visit.1⟩)).filter fun event =>
            event.phase = .enter).map fun event => (event.position, event.node) := by
      refine List.flatMap_congr fun visit hvisit => ?_
      refine ih visit.2 (snd_mem_of_mem_walked hvisit) _ fun event hevent => h event ?_
      exact mem_walkAt.2 (Or.inr ⟨rfl, visit, hvisit, hevent⟩)
    rw [dispatchedFrom_eq, visits_walk hkind, hparts, walkAt_eq]
    simp [List.filter_append, List.filter_flatMap, List.map_flatMap]

end Node

/-! ## Lines that begin nodes -/

/-- Whether a line begins a node: the first word in it says so. -/
def beginsNode (line : String) : Bool :=
  (Phase.enter.word ++ " ").toList.isPrefixOf (line.toList.dropWhile (· = ' '))

theorem beginsNode_line (event : Event) (depth : Nat) :
    beginsNode (event.line depth) = decide (event.phase = .enter) := by
  unfold beginsNode
  rw [Event.toList_line, List.dropWhile_append_of_pos (by simp)]
  cases event.phase <;> simp [Phase.word, List.isPrefixOf]

/-- The first line of a text. -/
def firstLine (text : String) : String :=
  String.ofList (text.toList.takeWhile (· ≠ '\n'))

theorem exists_linesOf_eq (text : String) : ∃ more, linesOf text = firstLine text :: more := by
  have hsplit : ∀ cs : List Char, ∃ more, cs.splitOn '\n' = cs.takeWhile (· ≠ '\n') :: more := by
    intro cs
    induction cs with
    | nil => exact ⟨[], rfl⟩
    | cons c cs ih =>
      obtain ⟨more, hmore⟩ := ih
      rw [List.splitOn_cons_eq_if_modifyHead, hmore, List.takeWhile_cons]
      by_cases hc : c = '\n' <;> simp [hc]
  obtain ⟨more, hmore⟩ := hsplit text.toList
  exact ⟨more.map String.ofList, by rw [linesOf, hmore, List.map_cons, firstLine]⟩

/-- The word at the beginning of the line of an event is on the first line, whatever the tag. -/
theorem beginsNode_firstLine {event : Event} (h : event.phase = .enter) (depth : Nat) :
    beginsNode (firstLine (event.line depth)) = true := by
  unfold beginsNode firstLine
  rw [Event.toList_line, h, List.takeWhile_append_of_pos (by simp), String.toList_ofList,
    List.dropWhile_append_of_pos (by simp)]
  simp [Phase.word, List.isPrefixOf]

namespace Node

/-- The lines of the text of a tree that begin nodes. -/
def begins (root : Node) : List String :=
  (linesOf root.trace).filter beginsNode

/-- **Every node that is entered has a line that begins it**, a different one for each. -/
theorem sublist_begins (root : Node) :
    (root.entered.map fun event => firstLine (event.line event.position.length)).Sublist root.begins := by
  unfold begins entered
  rw [root.linesOf_trace, listing_eq, List.flatMap_map, List.filter_flatMap]
  induction root.walk fun _ => false with
  | nil => exact List.Sublist.refl _
  | cons event events ih =>
    obtain ⟨more, hmore⟩ := exists_linesOf_eq (event.line event.position.length)
    rw [List.flatMap_cons]
    by_cases hphase : event.phase = .enter
    · rw [List.filter_cons_of_pos (by simpa using hphase), hmore,
        List.filter_cons_of_pos (beginsNode_firstLine hphase _), List.map_cons, List.cons_append]
      exact (ih.trans (List.sublist_append_right _ _)).cons_cons _
    · rw [List.filter_cons_of_neg (by simpa using hphase)]
      exact ih.trans (List.sublist_append_right _ _)

/-- **The lines that begin nodes** are those of the events that enter nodes, if no line is broken. -/
theorem Unbroken.begins_eq {root : Node} (h : root.Unbroken) :
    root.begins = root.entered.map fun event => event.line event.position.length := by
  have hline : (beginsNode ∘ fun event : Event => event.line event.position.length) = fun event =>
      decide (event.phase = .enter) := by
    funext event
    rw [Function.comp_apply, beginsNode_line]
  rw [begins, h.linesOf_trace, listing_eq, List.filter_map, hline]
  rfl

end Node

/-- **The text of a listing has a line for every node that code is generated for.** Keeping a record changes
nothing in the code of a tree. No node is in the record twice, and each is entered by the walk that is listed,
where every node that is entered has a line of its own that begins it. If tags and keys do not break lines, the
lines that begin nodes are no others. If the walk meets no await block, the nodes that are entered are those in
the record, in the same order. -/
theorem dispatched_listed (source : String) (root : Node) (seed : UInt64) :
    (root.audit source seed).code.fragment = root.fragment source seed ∧
      ((root.audit source seed).dispatched.map Prod.fst).Nodup ∧
      (∀ dispatch ∈ (root.audit source seed).dispatched, ∃ event ∈ root.entered,
        event.position = dispatch.1 ∧ event.node = dispatch.2) ∧
      (root.entered.map fun event => firstLine (event.line event.position.length)).Sublist root.begins ∧
      (root.Unbroken → root.begins = root.entered.map fun event => event.line event.position.length) ∧
      ((∀ event ∈ root.walk fun _ => false, event.node.kind ≠ .awaitBlock) →
        (root.audit source seed).dispatched = root.entered.map fun event => (event.position, event.node)) := by
  rw [root.dispatched_audit]
  refine ⟨root.fragment_audit source seed, root.nodup_dispatchedFrom [], fun dispatch hdispatch => ?_,
    root.sublist_begins, Node.Unbroken.begins_eq, Node.dispatchedFrom_eq_entered none⟩
  obtain ⟨place, hevent⟩ := Node.mem_walkAt_of_dispatched none hdispatch
  exact ⟨_, List.mem_filter.2 ⟨hevent, by simp⟩, rfl, rfl⟩

/-- A loop with the branch for the empty case before its content. -/
def hurriedLoop : Node where
  kind := .eachBlock
  fields := [.one .expression { kind := .text }, .one .elseBranch { kind := .elseBlock },
    .many .children [{ kind := .text }, { kind := .text }]]

/-- An await block that has its branches in another order than they are generated in, one of them twice, and
something in a slot that is no branch. What comes then awaits again. -/
def tangledAwait : Node where
  kind := .awaitBlock
  fields := [.one .catchBranch { kind := .catchBlock }, .many .children [{ kind := .text }],
    .one .thenBranch { kind := .awaitBlock, fields := [.many .pending [hurriedLoop, hurriedLoop]] },
    .one .pending { kind := .pendingBlock }, .one .pending { kind := .pendingBlock }]

theorem dispatched_listed_hurriedLoop :
    hurriedLoop.Unbroken ∧ (∀ event ∈ hurriedLoop.walk fun _ => false, event.node.kind ≠ .awaitBlock) ∧
      (hurriedLoop.audit "" 0).dispatched.map Prod.fst = [[], [(1, 0)], [(2, 0)], [(2, 1)]] ∧
      hurriedLoop.begins = [" BEGIN EachBlock (root)", "     BEGIN ElseBlock (else)",
        "     BEGIN Text (children)", "     BEGIN Text (children)"] ∧
      ((tangledAwait.audit "" 7).dispatched.map Prod.fst).Nodup ∧
      (tangledAwait.audit "" 7).dispatched.map Prod.fst =
        [[], [(3, 0)], [(2, 0)], [(0, 0), (2, 0)], [(1, 0), (0, 0), (2, 0)], [(2, 0), (0, 0), (2, 0)],
          [(2, 1), (0, 0), (2, 0)], [(0, 0)]] := by
  have hunbroken : hurriedLoop.Unbroken := by
    unfold Node.Unbroken
    decide +kernel
  have hquiet : ∀ event ∈ hurriedLoop.walk fun _ => false, event.node.kind ≠ .awaitBlock := by
    decide +kernel
  obtain ⟨-, -, -, -, hbegins, hsame⟩ := dispatched_listed "" hurriedLoop 0
  obtain ⟨-, hnodup, -⟩ := dispatched_listed "" tangledAwait 7
  refine ⟨hunbroken, hquiet, ?_, ?_, hnodup, ?_⟩
  · rw [hsame hquiet]
    rfl
  · rw [hbegins hunbroken]
    decide +kernel
  · rw [tangledAwait.dispatched_audit]
    rfl

/-- A node whose tag has a line break in it, and after that what looks like the line of another node. -/
def forgedNode : Node where
  kind := .ofTag "a\n BEGIN Text (children)"

/-- **A tag that breaks its line can forge another one**: two lines begin a node where one is dispatched. -/
theorem begins_forgedNode :
    (∀ event ∈ forgedNode.walk fun _ => false, event.node.kind ≠ .awaitBlock) ∧
      (forgedNode.audit "" 0).dispatched.map Prod.fst = [[]] ∧
      forgedNode.begins = [" BEGIN a", " BEGIN Text (children) (root)", " BEGIN Text (children) (root)"] := by
  refine ⟨by decide +kernel, ?_, by decide +kernel⟩
  rw [forgedNode.dispatched_audit]
  rfl

end TemplateCode
