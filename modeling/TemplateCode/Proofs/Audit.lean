import TemplateCode.Proofs.Dispatched
import TemplateCode.Proofs.Splicing
import Mathlib.Data.List.Flatten
import Mathlib.Data.List.Perm.Subperm

/-!
# The counter of synthetic names

The counter of synthetic names has 64 bits and goes on at zero when they are used up. A tree asks for less than
two names per node, so this takes a seed near the end of the numbers, or a tree of some 2⁶³ nodes. The record of
every increment, and of where every run starts and ends to count, shows that otherwise the numbers only go up,
in the runs for branches too.

* `Node.length_entries_lt`: how many names a tree asks for.
* `Audit.Spends`: what the record says of an effect on code under construction.
* `audit_bounded`: the increments and the runs of the code of a tree.
-/

namespace TemplateCode

/-! ## How many names a tree asks for -/

/-- If each item falls short of twice its measure, all of them together do by as much as there are items. -/
theorem length_flatMap_lt {α β γ : Type} {items : List α} {f : α → List β} {g : α → List γ}
    (h : ∀ item ∈ items, (f item).length < 2 * (g item).length) :
    (items.flatMap f).length + items.length ≤ 2 * (items.flatMap g).length := by
  induction items with
  | nil => simp
  | cons item items ih =>
    obtain ⟨hitem, hitems⟩ := List.forall_mem_cons.1 h
    have hrest := ih hitems
    simp only [List.flatMap_cons, List.length_append, List.length_cons]
    omega

namespace Node

theorem length_preorder_eq (node : Node) (here : Position) :
    node.preorder.length = ((node.held here).flatMap fun part => part.2.preorder).length + 1 := by
  unfold preorder
  rw [fold_eq, node.map_fields here, flatMap_mapBelow, List.length_cons, ← List.flatMap_def]
  rfl

/-- What is visited below a node is visited once. -/
theorem visits_subperm (node : Node) (here : Position) :
    ((visits node (node.parts here)).map Prod.snd).Subperm (node.held here) := by
  have hnodup : ((visits node (node.parts here)).map Prod.snd).Nodup := by
    refine List.pairwise_map.2 ((node.pairwise_visits here).imp fun {visit other} hne hsame => hne ?_)
    rw [hsame]
  refine List.subperm_of_subset hnodup fun part hpart => ?_
  obtain ⟨visit, hvisit, rfl⟩ := List.mem_map.1 hpart
  exact snd_mem_of_mem_visits hvisit

theorem length_visits_le (node : Node) (here : Position) :
    ((visits node (node.parts here)).flatMap fun visit => visit.2.2.preorder).length + 1 ≤
      node.preorder.length := by
  obtain ⟨parts, hperm, hsub⟩ := node.visits_subperm here
  have hlength := (hsub.flatMap fun part => part.2.preorder).length_le
  rw [(hperm.flatMap_right fun part => part.2.preorder).length_eq, List.flatMap_map] at hlength
  rw [node.length_preorder_eq here]
  exact Nat.succ_le_succ hlength

/-- The identifiers of a node are among what is walked. -/
theorem length_identifiers_le (node : Node) (here : Position) :
    (node.nodesIn .identifiers).length ≤ (walked (node.parts here)).length := by
  have hwalked : (walked (node.parts here)).length = node.content.length := by
    rw [← node.map_walked_parts here, List.length_map]
  unfold nodesIn
  split
  · rename_i field hfield
    have hslot : field.slot = .identifiers := by simpa using List.find?_some hfield
    have hmem : field ∈ node.fields.filter fun field => !field.slot.isFragment :=
      List.mem_filter.2 ⟨List.mem_of_find?_eq_some hfield, by rw [hslot]; rfl⟩
    obtain ⟨before, after, hsplit⟩ := List.append_of_mem hmem
    rw [hwalked, content, hsplit]
    simp only [List.flatMap_append, List.flatMap_cons, List.length_append]
    omega
  · exact Nat.zero_le _

/-- A node asks for one name, or for one for each of its identifiers. -/
theorem length_ownEntries_le (read : Reading) (node : Node) (here : Position) :
    (node.ownEntries read).length ≤ (visits node (node.parts here)).length + 1 := by
  have hread : ∀ initializer, (NameEntry.ofText initializer).length ≤ 1 := by
    intro initializer
    unfold NameEntry.ofText
    split <;> simp
  have hscope : (NameEntry.ofNames (node.boundNames read)).length ≤ 1 := by
    cases node.boundNames read <;> simp [NameEntry.ofNames]
  by_cases hkind : node.kind = .debugTag
  · have hidentifiers := node.length_identifiers_le here
    have hnames : ((node.nodesIn .identifiers).flatMap fun identifier =>
        NameEntry.ofText identifier.label).length + (node.nodesIn .identifiers).length ≤
          2 * ((node.nodesIn .identifiers).flatMap fun identifier => [identifier]).length :=
      length_flatMap_lt fun identifier _ => Nat.lt_succ_of_le (hread identifier.label)
    rw [List.flatMap_singleton'] at hnames
    rw [visits_walk (by simp [hkind]), ownEntries, hkind]
    dsimp only
    omega
  · refine Nat.le_add_left_of_le ?_
    revert hkind
    unfold ownEntries
    cases node.kind with
    | inlineComponent | slotTemplate => exact fun _ => hscope
    | element =>
      intro _
      dsimp only
      split
      · exact hscope
      · exact Nat.zero_le 1
    | mustacheTag | rawMustacheTag | attributeShorthand | binding | eventHandler => exact fun _ => hread _
    | spread =>
      intro _
      dsimp only
      split <;> simp
    | debugTag => exact fun hkind => absurd rfl hkind
    | classDirective => exact fun _ => Nat.le_refl 1
    | _ => exact fun _ => Nat.zero_le 1

/-- **A tree asks for less than two names per node.** A name for an identifier is charged to the identifier,
every other name to the node that asks for it. -/
theorem length_entries_lt (read : Reading) (node : Node) :
    (node.entries read).length < 2 * node.preorder.length := by
  induction node using Node.induction with
  | step node ih =>
    have hvisits : ∀ visit ∈ visits node (node.parts []),
        (visit.2.2.entries read).length < 2 * visit.2.2.preorder.length := by
      intro visit hvisit
      obtain ⟨-, field, hfield, hbelow⟩ := mem_held (snd_mem_of_mem_visits hvisit)
      exact ih field hfield _ hbelow
    -- each tree below leaves one name over, which is what an identifier costs its parent
    have hbelow := length_flatMap_lt hvisits
    have hown := node.length_ownEntries_le read []
    have hnodes := node.length_visits_le []
    rw [entries_eq read node [], List.length_append]
    omega

end Node

/-! ## What the record says -/

/-- A run has counted the names of its tree, upwards from its seed, and the tree alone decides where it ends. -/
structure Run.Sound (source : String) (run : Run) : Prop where
  next_eq : run.next = (run.root.fragment source run.seed).next
  counted : run.next.toNat = run.seed.toNat + (run.root.entries (Span.readIn source)).length

namespace Audit

/-- Between two points, an increment has been recorded for each of the given entries, and a line written that
declares a name. If the numbers do not run out, they were counted one after the other, and the runs that have
ended are sound. -/
structure Spends (source : String) (before : Audit) (entries : List NameEntry) (after : Audit) : Prop where
  declared : (declarations after.code.lines).length =
    (declarations before.code.lines).length + entries.length
  recorded : ∃ increments runs, after.increments = before.increments ++ increments ∧
    after.runs = before.runs ++ runs ∧ increments.length = entries.length ∧
    (before.code.counter.toNat + entries.length < UInt64.size →
      after.code.counter.toNat = before.code.counter.toNat + entries.length ∧
      increments.map UInt64.toNat = List.range' before.code.counter.toNat entries.length ∧
      ∀ run ∈ runs, run.Sound source)

variable {source : String}

theorem Spends.refl (audit : Audit) : audit.Spends source [] audit where
  declared := rfl
  recorded := ⟨[], [], by simp, by simp, rfl, fun _ => ⟨rfl, rfl, by simp⟩⟩

theorem Spends.trans {before mid after : Audit} {entries more : List NameEntry}
    (h : before.Spends source entries mid) (h' : mid.Spends source more after) :
    before.Spends source (entries ++ more) after where
  declared := by
    rw [h'.declared, h.declared, List.length_append]
    omega
  recorded := by
    obtain ⟨increments, runs, hincrements, hruns, hlength, hcounts⟩ := h.recorded
    obtain ⟨increments', runs', hincrements', hruns', hlength', hcounts'⟩ := h'.recorded
    refine ⟨increments ++ increments', runs ++ runs', ?_, ?_, ?_, fun hcounter => ?_⟩
    · rw [hincrements', hincrements, List.append_assoc]
    · rw [hruns', hruns, List.append_assoc]
    · rw [List.length_append, List.length_append, hlength, hlength']
    · rw [List.length_append] at hcounter ⊢
      obtain ⟨hmid, hnumbers, hsound⟩ := hcounts (by omega)
      obtain ⟨hafter, hnumbers', hsound'⟩ := hcounts' (by omega)
      refine ⟨by omega, ?_, ?_⟩
      · rw [List.map_append, hnumbers, hnumbers', hmid, List.range'_append_1]
      · exact List.forall_mem_append.2 ⟨hsound, hsound'⟩

/-- What declares nothing leaves the counter alone. -/
theorem spends_update {f : Code Position → Code Position} (audit : Audit)
    (h : audit.code.Issues [] (f audit.code)) : audit.Spends source [] (audit.update f) where
  declared := by
    rw [update, h.declared]
    simp [numbered]
  recorded := ⟨[], [], by simp [update], by simp [update], rfl, fun _ => ⟨h.counted, rfl, by simp⟩⟩

/-- **An increment**, after which the line for the name is written. -/
theorem spends_count {f : Code Position → Code Position} (audit : Audit) (entry : NameEntry) {line : Line}
    (hrole : line.role.names = true) (hlines : (f audit.code.count).lines = audit.code.lines ++ [line])
    (hcounter : (f audit.code.count).counter = audit.code.counter + 1) :
    audit.Spends source [entry] (audit.count.update f) where
  declared := by
    rw [Audit.update, count, hlines, declarations_append, List.length_append]
    simp [declarations, hrole]
  recorded := by
    refine ⟨[audit.code.counter], [], rfl, by simp [Audit.update, count], rfl, fun hsize => ⟨?_, rfl, by simp⟩⟩
    rw [Audit.update, count, hcounter, UInt64.toNat_add]
    exact Nat.mod_eq_of_lt hsize

theorem spends_declare (initializer : String) (audit : Audit) :
    audit.Spends source (NameEntry.ofText initializer) (audit.declare initializer) := by
  unfold declare NameEntry.ofText
  split
  · exact .refl audit
  · exact audit.spends_count (.var initializer) rfl
      ((Code.lines_write .declaration _ audit.code.count).trans (by rw [if_neg (by simp)]; rfl))
      (Code.write_counter .declaration _ audit.code.count)

theorem spends_openScope (params : List String) (owner : Option Position) (audit : Audit) :
    audit.Spends source [.fn params] (audit.openScope params owner) :=
  audit.spends_count (.fn params) rfl
    ((Code.lines_write .scope _ audit.code.count).trans (by rw [if_neg (by simp)]; rfl))
    (Code.write_counter .scope _ audit.code.count)

theorem spends_apply (audit : Audit) (edit : Edit Position) (hsplice : ∀ fragment, edit ≠ .splice fragment) :
    audit.Spends source edit.entries (audit.apply edit) := by
  cases edit with
  | append text => exact audit.spends_update (Code.issues_append text audit.code)
  | declare initializer => exact audit.spends_declare initializer
  | openBlock header owner => exact audit.spends_update (Code.issues_openBlock header owner audit.code)
  | openScope params owner => exact audit.spends_openScope params owner
  | close owner =>
    cases owner with
    | none => exact audit.spends_update (Code.issues_closeInnermost audit.code)
    | some owner => exact audit.spends_update (Code.issues_closeOwned owner audit.code)
  | splice fragment => exact (hsplice fragment rfl).elim

/-- Closing what a node has opened declares nothing. -/
theorem Spends.close {before after : Audit} {entries : List NameEntry}
    (h : before.Spends source entries after) (owner : Position) :
    before.Spends source entries (after.apply (.close (some owner))) := by
  have hclose := h.trans (after.spends_apply (.close (some owner)) (by simp))
  rwa [Edit.entries, List.append_nil] at hclose

theorem Spends.of_enter {before after : Audit} {entries : List NameEntry} {dispatch : Dispatch}
    (h : (before.enter dispatch).Spends source entries after) : before.Spends source entries after where
  declared := h.declared
  recorded := h.recorded

/-- **Steps that are made one after the other** spend their entries one after the other. -/
theorem spends_foldl {α : Type} (step : Audit → α → Audit) (entries : α → List NameEntry) {items : List α}
    (h : ∀ item ∈ items, ∀ audit : Audit, audit.Spends source (entries item) (step audit item))
    (audit : Audit) : audit.Spends source (items.flatMap entries) (items.foldl step audit) := by
  induction items generalizing audit with
  | nil => exact .refl audit
  | cons item items ih =>
    obtain ⟨hitem, hitems⟩ := List.forall_mem_cons.1 h
    rw [List.flatMap_cons, List.foldl_cons]
    exact (hitem audit).trans (ih hitems _)

end Audit

namespace Audited

open Audit (Spends)

variable {source : String}

/-- What a tree with a record does, wherever it is met: an increment for each of its entries. -/
def SpendsEntries (source : String) (root : Node) (audited : Audited) : Prop :=
  ∀ (parent : Option (Parent Position)) (audit : Audit),
    audit.Spends source (root.entries (Span.readIn source)) (audited.effect parent audit)

/-- **A run of its own** counts on from the counter and is sound. -/
theorem spends_run (part : Dispatch)
    (h : SpendsEntries source part.2 (emit (Span.readIn source) part.2 part.1)) (audit : Audit) :
    { audit with code := Code.start audit.code.counter }.Spends source (part.2.entries (Span.readIn source))
      ((emit (Span.readIn source) part.2 part.1).run audit) := by
  have hspends := h none { audit with code := Code.start audit.code.counter }
  obtain ⟨increments, runs, hincrements, hruns, hlength, hcounts⟩ := hspends.recorded
  refine ⟨hspends.declared, increments,
    runs ++ [⟨part.2, audit.code.counter, ((emit (Span.readIn source) part.2 part.1).run audit).code.counter⟩],
    hincrements, ?_, hlength, fun hcounter => ?_⟩
  · rw [← List.append_assoc, ← hruns, run, emit_eq]
  · obtain ⟨hended, hnumbers, hsound⟩ := hcounts hcounter
    refine ⟨hended, hnumbers, List.forall_mem_append.2 ⟨hsound, List.forall_mem_singleton.2 ⟨?_, hended⟩⟩⟩
    have hcode := follows_emit (Span.readIn source) part.2 part.1 none
      { audit with code := Code.start audit.code.counter }
    have hfragment := run_emit (Span.readIn source) (Set.injOn_id { p | p ∈ part.2.positions part.1 })
      audit.code.counter
    exact (congrArg Code.counter hcode).trans (congrArg Fragment.next hfragment)

/-- **Splicing in a branch** records what the run for it does. -/
theorem spends_spliceInto (part : Dispatch)
    (h : SpendsEntries source part.2 (emit (Span.readIn source) part.2 part.1)) (audit : Audit) :
    audit.Spends source (part.2.entries (Span.readIn source))
      ((emit (Span.readIn source) part.2 part.1).spliceInto audit) := by
  have hrun := spends_run part h audit
  have hcode : ((emit (Span.readIn source) part.2 part.1).run audit).code =
      TemplateCode.emit (Span.readIn source) id part.2 part.1 none (Code.start audit.code.counter) :=
    follows_emit (Span.readIn source) part.2 part.1 none _
  have hnested : Nested 0 ((emit (Span.readIn source) part.2 part.1).run audit).code.lines 0 := by
    rw [hcode]
    exact nested_run (Set.injOn_id _) (extends_emit _ _ _ _ (Set.injOn_id _)) audit.code.counter
  constructor
  · have hdeclared := hrun.declared
    have hstart : declarations (Code.start audit.code.counter : Code Position).lines = [] := rfl
    rw [hstart, List.length_nil, Nat.zero_add] at hdeclared
    rw [spliceInto, Audit.update, Code.lines_splice, declarations_append, Code.fragment, hnested.filter_eq,
      declarations_nest, List.length_append, hdeclared]
  · obtain ⟨increments, runs, hincrements, hruns, hlength, hcounts⟩ := hrun.recorded
    refine ⟨increments, runs, hincrements, hruns, hlength, fun hcounter => ?_⟩
    obtain ⟨hended, hnumbers, hsound⟩ := hcounts hcounter
    refine ⟨?_, hnumbers, hsound⟩
    -- the larger of the two numbers is where the run has stopped
    have hle : audit.code.counter ≤ ((emit (Span.readIn source) part.2 part.1).run audit).code.counter :=
      UInt64.le_iff_toNat_le.2 (hended ▸ Nat.le_add_right _ _)
    exact (congrArg UInt64.toNat (if_pos hle)).trans hended

/-- **A step of an await block** spends the names of the branch that it splices in, if it does. -/
theorem spends_awaitStep {node : Node} {here : Position}
    (h : ∀ part ∈ node.held here, SpendsEntries source part.2 (emit (Span.readIn source) part.2 part.1))
    {step : AwaitStep Position Dispatch}
    (hstep : step ∈ awaitSteps (Span.readIn source) node (node.parts here)) (audit : Audit) :
    audit.Spends source (step.entries (Span.readIn source))
      ((step.map fun part => emit (Span.readIn source) part.2 part.1).audit audit) := by
  rcases awaitSteps_cases hstep with ⟨edit, hplain, rfl⟩ | ⟨branch, hbranch, rfl⟩
  · cases hplain with
    | append text => exact audit.spends_apply (.append text) (by simp)
    | openBlock header => exact audit.spends_apply (.openBlock header none) (by simp)
    | close => exact audit.spends_apply (.close none) (by simp)
  · cases branch with
    | none => exact .refl audit
    | some part =>
      obtain ⟨slot, hmem⟩ := hbranch part rfl
      rw [AwaitStep.entries, AwaitStep.branch?, Option.toList_some, List.flatMap_singleton]
      exact spends_spliceInto part (h part (snd_mem_of_mem_branches hmem)) audit

/-- **A whole tree** spends the names it asks for. -/
theorem spends_emit (source : String) (node : Node) (here : Position) :
    SpendsEntries source node (emit (Span.readIn source) node here) := by
  induction here, node using Node.located_induction with
  | step here node ih =>
    intro parent audit
    rw [Node.entries_eq (Span.readIn source) node here]
    by_cases hkind : node.kind = .awaitBlock
    · have hown : node.ownEntries (Span.readIn source) = [] := by simp [Node.ownEntries, hkind]
      rw [hown, List.nil_append, visits_await hkind, effect_await _ here hkind,
        ← flatMap_awaitSteps (ι := Position) (Span.readIn source) node (node.parts here) fun part =>
          part.2.entries (Span.readIn source)]
      exact (Audit.spends_foldl _ _ (fun step hstep => spends_awaitStep ih hstep) _).of_enter.close here
    · rw [visits_walk hkind, effect_walk _ here hkind]
      have hopening : (audit.enter (here, node)).Spends source (node.ownEntries (Span.readIn source))
          ((opening (Span.readIn source) node here (parent.map Parent.kind)
            (isChained parent audit.code)).foldl Audit.apply (audit.enter (here, node))) := by
        rw [← flatMap_entries_opening (Span.readIn source) node here (parent.map Parent.kind)
          (isChained parent audit.code)]
        exact Audit.spends_foldl _ _ (fun edit hedit audit =>
          audit.spends_apply edit fun fragment h => splice_not_mem_opening _ _ _ _ _ fragment (h ▸ hedit)) _
      refine (hopening.trans (Audit.spends_foldl _ _ (fun visit hvisit audit => ?_) _)).of_enter.close here
      exact ih visit.2 (snd_mem_of_mem_walked hvisit) (some ⟨node.kind, here⟩) audit

end Audited

/-! ## The record of a whole run -/

theorem Node.spends_audit (source : String) (root : Node) (seed : UInt64) :
    { code := Code.start seed : Audit }.Spends source (root.entries (Span.readIn source))
      (root.audit source seed) :=
  Audited.spends_run ([], root) (Audited.spends_emit source root []) { code := Code.start seed }

/-- There is a line for each entry, whatever the seed. -/
theorem Node.length_declarations_fragment (source : String) (root : Node) (seed : UInt64) :
    (declarations (root.fragment source seed).lines).length = (root.entries (Span.readIn source)).length := by
  have hdeclared := (root.spends_audit source seed).declared
  have hstart : declarations (Code.start seed : Code Position).lines = [] := rfl
  rw [hstart, List.length_nil, Nat.zero_add] at hdeclared
  rw [← root.fragment_audit source seed]
  exact hdeclared

namespace Run.Sound

variable {source : String} {run : Run}

theorem le (h : run.Sound source) : run.seed ≤ run.next :=
  UInt64.le_iff_toNat_le.2 (h.counted ▸ Nat.le_add_right _ _)

theorem toNat_next_le (h : run.Sound source) :
    run.next.toNat ≤ run.seed.toNat + 2 * run.root.preorder.length := by
  have hbound := run.root.length_entries_lt (Span.readIn source)
  rw [h.counted]
  omega

/-- What a run has counted is the names in its code. -/
theorem toNat_sub (h : run.Sound source) :
    (run.next - run.seed).toNat = (declarations (run.root.fragment source run.seed).lines).length := by
  rw [UInt64.toNat_sub_of_le _ _ h.le, h.counted, Nat.add_sub_cancel_left,
    run.root.length_declarations_fragment]

end Run.Sound

/-- **The counter of synthetic names does not run over.** Keeping a record of it changes nothing in the code of
a tree. The increments are as many as the names in the code, whatever the seed, and at most two per node of the
tree. If that many can be counted from the seed, the numbers are counted one after the other, and no increment
goes back to zero, in the run for the tree and in those for branches. Every run, which is that of some tree
from some seed, ends where it started or above, by no more than two per node of its tree, so the difference is
not negative: it is the number of names. -/
theorem audit_bounded (source : String) (root : Node) (seed : UInt64) :
    (root.audit source seed).code.fragment = root.fragment source seed ∧
      (declarations (root.fragment source seed).lines).length =
        (root.audit source seed).increments.length ∧
      (root.audit source seed).increments.length ≤ 2 * root.preorder.length ∧
      (seed.toNat + 2 * root.preorder.length < UInt64.size →
        (root.audit source seed).increments.map UInt64.toNat =
            List.range' seed.toNat (root.audit source seed).increments.length ∧
          (∀ counter ∈ (root.audit source seed).increments, (counter + 1).toNat = counter.toNat + 1) ∧
          seed ≤ (root.fragment source seed).next ∧
          (root.fragment source seed).next.toNat ≤ seed.toNat + 2 * root.preorder.length ∧
          ⟨root, seed, (root.fragment source seed).next⟩ ∈ (root.audit source seed).runs ∧
          ∀ run ∈ (root.audit source seed).runs,
            run.next = (run.root.fragment source run.seed).next ∧ run.seed ≤ run.next ∧
              run.next.toNat ≤ run.seed.toNat + 2 * run.root.preorder.length ∧
              (run.next - run.seed).toNat =
                (declarations (run.root.fragment source run.seed).lines).length) := by
  have hfragment := root.fragment_audit source seed
  have hbound := root.length_entries_lt (Span.readIn source)
  obtain ⟨increments, runs, hincrements, hruns, hlength, hcounts⟩ := (root.spends_audit source seed).recorded
  have hself : ⟨root, seed, (root.fragment source seed).next⟩ ∈ (root.audit source seed).runs := by
    rw [← hfragment, Node.audit, Audited.run, Audited.emit_eq]
    exact List.mem_append_right _ List.mem_cons_self
  rw [List.nil_append] at hincrements hruns
  rw [hincrements, hruns, hlength] at *
  refine ⟨hfragment, root.length_declarations_fragment source seed, hbound.le, fun hsize => ?_⟩
  have hseed : (Code.start seed : Code Position).counter = seed := rfl
  obtain ⟨-, hnumbers, hsound⟩ := hcounts (by rw [hseed]; omega)
  refine ⟨hnumbers, fun counter hcounter => ?_, (hsound _ hself).le, (hsound _ hself).toNat_next_le, hself,
    fun run hrun => ⟨(hsound run hrun).next_eq, (hsound run hrun).le, (hsound run hrun).toNat_next_le,
      (hsound run hrun).toNat_sub⟩⟩
  -- a number that is counted is below the seed and twice the nodes
  have hmem := List.mem_map_of_mem (f := UInt64.toNat) hcounter
  rw [hnumbers, List.mem_range'_1, hseed] at hmem
  rw [UInt64.toNat_add]
  exact Nat.mod_eq_of_lt (show counter.toNat + 1 < UInt64.size by omega)

/-- An await block that lists identifiers meanwhile, each of which asks for a name twice, and awaits again
then, with something to do on failure. -/
def watchedAwait : Node where
  kind := .awaitBlock
  fields := [
    .one .thenBranch
      { kind := .awaitBlock, fields := [.one .catchBranch { kind := .classDirective, name := some "c" }] },
    .one .pending
      { kind := .debugTag
        fields := [.many .identifiers [{ kind := .classDirective, name := some "a" },
          { kind := .classDirective, name := some "b" }]] }]

theorem audit_bounded_watchedAwait :
    (18446744073709551603 : UInt64).toNat + 2 * watchedAwait.preorder.length < UInt64.size ∧
      (watchedAwait.audit "" 18446744073709551603).increments.map UInt64.toNat =
        List.range' 18446744073709551603 5 ∧
      (∀ counter ∈ (watchedAwait.audit "" 18446744073709551603).increments,
        (counter + 1).toNat = counter.toNat + 1) ∧
      (watchedAwait.audit "" 18446744073709551603).runs.map (fun run => (run.seed, run.next)) =
        [(18446744073709551603, 18446744073709551607), (18446744073709551607, 18446744073709551608),
          (18446744073709551607, 18446744073709551608), (18446744073709551603, 18446744073709551608)] ∧
      ∀ run ∈ (watchedAwait.audit "" 18446744073709551603).runs, run.seed ≤ run.next := by
  have hsize : (18446744073709551603 : UInt64).toNat + 2 * watchedAwait.preorder.length < UInt64.size := by
    decide +kernel
  obtain ⟨-, -, -, hcounted⟩ := audit_bounded "" watchedAwait 18446744073709551603
  obtain ⟨hnumbers, hincrements, -, -, -, hruns⟩ := hcounted hsize
  refine ⟨hsize, hnumbers.trans (by decide +kernel), hincrements, by decide +kernel, ?_⟩
  exact fun run hrun => (hruns run hrun).2.1

end TemplateCode
