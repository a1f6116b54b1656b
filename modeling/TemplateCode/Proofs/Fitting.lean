import TemplateCode.Proofs.Canonical
import TemplateCode.Tree.Load

/-!
# Trees that fit a source

A span fits a source if the source can be cut into three where the span says. A tree fits if all its
spans do; if not, the fault is about the first node that does not, where a node comes before the nodes
in its fields, and these come in order.

* `Span.Fits`: spans that fit a source.
* `Node.at?`: the node at an address, `Address.Before`: which of two addresses comes first.
* `Address.Finds`: a search finds what is first, `Address.Finds.of_groups`: how a search goes down a tree.
* `Node.ordered_of_ofJson`: no span of a tree that is loaded is inverted.
* `validate_firstMisfit`: what is reported of a tree that does not fit, and where it points to.
-/

namespace TemplateCode

/-- A span that selects a text: the source is a text as long as the start says, followed by a text as
long as the span, followed by anything. -/
def Span.Fits (source : String) (span : Span) : Prop :=
  span.start ≤ span.stop ∧ ∃ a text b, source = a ++ text ++ b ∧ a.utf8ByteSize = span.start ∧
    text.utf8ByteSize = span.stop - span.start

theorem Span.fits_iff {source : String} {span : Span} :
    span.Fits source ↔ (span.slice source).isNone = false := by
  rw [Option.isNone_eq_false_iff, Option.isSome_iff_exists]
  simp only [slice_eq_some_iff]
  constructor
  · rintro ⟨hordered, a, text, b, hsource, hstart, hstop⟩
    exact ⟨text, a, b, hsource, by omega, by omega⟩
  · rintro ⟨text, a, b, hsource, hstart, hstop⟩
    exact ⟨by omega, a, text, b, hsource, by omega, by omega⟩

/-! ## Addresses -/

/-- Where a node stands in a tree: for each step down from the root, the number of a field and the
number of a node in this field. -/
abbrev Address := List (Nat × Nat)

/-- Which of two addresses comes first: an address comes before those that go on from it, and where two
addresses part, the earlier field or the earlier node in a field comes first. -/
def Address.Before : Address → Address → Prop :=
  List.Lex (Prod.Lex (· < ·) (· < ·))

namespace Node

/-- The node at an address. -/
def at? : Node → Address → Option Node
  | node, [] => some node
  | node, (i, j) :: address =>
    match node.fields[i]? with
    | some field =>
      match field.nodes[j]? with
      | some below => below.at? address
      | none => none
    | none => none

theorem at?_cons_eq_some_iff {root node : Node} {i j : Nat} {address : Address} :
    root.at? ((i, j) :: address) = some node ↔
      ∃ field below, root.fields[i]? = some field ∧ field.nodes[j]? = some below ∧
        below.at? address = some node := by
  rw [at?]
  cases root.fields[i]? with
  | none => simp
  | some field =>
    cases hbelow : field.nodes[j]? with
    | none => simp [hbelow]
    | some below => simp [hbelow]

/-- The nodes of a tree are those at its addresses. -/
theorem mem_preorder_iff_at? {root node : Node} :
    node ∈ root.preorder ↔ ∃ address, root.at? address = some node := by
  induction root using Node.induction with
  | step root ih =>
    rw [mem_preorder]
    constructor
    · rintro (rfl | ⟨field, hfield, below, hbelow, hnode⟩)
      · exact ⟨[], rfl⟩
      · obtain ⟨i, hi⟩ := List.mem_iff_getElem?.1 hfield
        obtain ⟨j, hj⟩ := List.mem_iff_getElem?.1 hbelow
        obtain ⟨address, haddress⟩ := (ih field hfield below hbelow).1 hnode
        exact ⟨(i, j) :: address, at?_cons_eq_some_iff.2 ⟨field, below, hi, hj, haddress⟩⟩
    · rintro ⟨_ | ⟨⟨i, j⟩, address⟩, haddress⟩
      · exact Or.inl (Option.some.inj haddress).symm
      · obtain ⟨field, below, hi, hj, hnode⟩ := at?_cons_eq_some_iff.1 haddress
        have hfield := List.mem_of_getElem? hi
        have hbelow := List.mem_of_getElem? hj
        exact Or.inr ⟨field, hfield, below, hbelow, (ih field hfield below hbelow).2 ⟨address, hnode⟩⟩

end Node

/-! ## What comes first -/

/-- The first item that gives a result, by the numbers of items. -/
theorem findSome?_eq_some_iff_getElem? {α β : Type} {f : α → Option β} {items : List α} {b : β} :
    items.findSome? f = some b ↔
      ∃ (i : Nat) (a : α), items[i]? = some a ∧ f a = some b ∧
        ∀ i' < i, ∀ a', items[i']? = some a' → f a' = none := by
  induction items with
  | nil => simp
  | cons item items ih =>
    rw [List.findSome?_cons]
    cases hitem : f item with
    | some c =>
      constructor
      · rintro hc
        exact ⟨0, item, rfl, hitem.trans hc, nofun⟩
      · rintro ⟨_ | i, a, ha, hb, hearlier⟩
        · cases ha
          exact hitem.symm.trans hb
        · -- the first item comes before
          have hnone := hearlier 0 (Nat.succ_pos i) item rfl
          rw [hitem] at hnone
          cases hnone
    | none =>
      rw [ih]
      constructor
      · rintro ⟨i, a, ha, hb, hearlier⟩
        refine ⟨i + 1, a, ha, hb, ?_⟩
        rintro (_ | i') hi' a' ha'
        · cases ha'
          exact hitem
        · exact hearlier i' (by omega) a' ha'
      · rintro ⟨_ | i, a, ha, hb, hearlier⟩
        · cases ha
          rw [hitem] at hb
          cases hb
        · exact ⟨i, a, ha, hb, fun i' hi' a' ha' => hearlier (i' + 1) (by omega) a' ha'⟩

namespace Address

/-- What comes before an address: the root, what is in earlier groups, what is earlier in the group, and
what comes before the rest of the address. -/
theorem forall_before_cons_iff {P : Address → Prop} {i j : Nat} {address : Address} :
    (∀ earlier : Address, earlier.Before ((i, j) :: address) → P earlier) ↔
      P [] ∧ (∀ i' < i, ∀ j' rest, P ((i', j') :: rest)) ∧ (∀ j' < j, ∀ rest, P ((i, j') :: rest)) ∧
        ∀ earlier : Address, earlier.Before address → P ((i, j) :: earlier) := by
  constructor
  · intro h
    exact ⟨h [] .nil, fun i' hlt j' rest => h _ (.rel (.left j' j hlt)),
      fun j' hlt rest => h _ (.rel (.right i hlt)), fun earlier hbefore => h _ (.cons hbefore)⟩
  · rintro ⟨hroot, hgroups, hitems, hearlier⟩ earlier hbefore
    cases hbefore with
    | nil => exact hroot
    | cons hbefore => exact hearlier _ hbefore
    | rel hbefore =>
      rcases hbefore with ⟨_, _, hlt⟩ | ⟨_, hlt⟩
      · exact hgroups _ hlt _ _
      · exact hitems _ hlt _

variable {α β γ : Type}

/-- The first of all that is at some address. -/
structure First (At : Address → β → Prop) (address : Address) (b : β) : Prop where
  found : At address b
  earlier : ∀ earlier : Address, earlier.Before address → ∀ other, ¬At earlier other

/-- What a search finds is the first of all that is at some address. -/
structure Finds (At : Address → β → Prop) (found : Option β) : Prop where
  none_iff : found = none ↔ ∀ address b, ¬At address b
  some_iff : ∀ b, found = some b ↔ ∃ address, First At address b

section

variable {At : Address → β → Prop} {below : α → Address → β → Prop} {here : Option β} {groups : List γ}
  {items : γ → List α}

/-- There is nothing at any address: nothing at the root, and nothing below its items. -/
theorem forall_not_iff (hnil : ∀ b, At [] b ↔ here = some b)
    (hcons : ∀ i j address b, At ((i, j) :: address) b ↔
      ∃ group a, groups[i]? = some group ∧ (items group)[j]? = some a ∧ below a address b) :
    (∀ address b, ¬At address b) ↔
      here = none ∧ ∀ group ∈ groups, ∀ a ∈ items group, ∀ address b, ¬below a address b := by
  constructor
  · intro h
    refine ⟨Option.eq_none_iff_forall_ne_some.2 fun b hb => h [] b ((hnil b).2 hb), ?_⟩
    intro group hgroup a ha address b hb
    obtain ⟨i, hi⟩ := List.mem_iff_getElem?.1 hgroup
    obtain ⟨j, hj⟩ := List.mem_iff_getElem?.1 ha
    exact h _ b ((hcons i j address b).2 ⟨group, a, hi, hj, hb⟩)
  · rintro ⟨hhere, hnone⟩ (_ | ⟨⟨i, j⟩, address⟩) b hb
    · rw [hnil, hhere] at hb
      cases hb
    · obtain ⟨group, a, hi, hj, hb⟩ := (hcons i j address b).1 hb
      exact hnone group (List.mem_of_getElem? hi) a (List.mem_of_getElem? hj) address b hb

/-- What comes first below the root: there is nothing at the root, in earlier groups, or earlier in the
group, and it comes first below its item. -/
theorem first_cons_iff (hnil : ∀ b, At [] b ↔ here = some b)
    (hcons : ∀ i j address b, At ((i, j) :: address) b ↔
      ∃ group a, groups[i]? = some group ∧ (items group)[j]? = some a ∧ below a address b)
    {i j : Nat} {address : Address} {b : β} :
    First At ((i, j) :: address) b ↔
      here = none ∧ ∃ group a, groups[i]? = some group ∧ (items group)[j]? = some a ∧
        First (below a) address b ∧
        (∀ j' < j, ∀ a', (items group)[j']? = some a' → ∀ address b, ¬below a' address b) ∧
        ∀ i' < i, ∀ group', groups[i']? = some group' →
          ∀ a' ∈ items group', ∀ address b, ¬below a' address b := by
  constructor
  · rintro ⟨hfound, hearlier⟩
    obtain ⟨group, a, hi, hj, hb⟩ := (hcons i j address b).1 hfound
    obtain ⟨hroot, hgroups, hitems, hearlier⟩ := forall_before_cons_iff.1 hearlier
    refine ⟨Option.eq_none_iff_forall_ne_some.2 fun other hother => hroot other ((hnil other).2 hother),
      group, a, hi, hj, ⟨hb, fun earlier hbefore other hother => ?_⟩,
      fun j' hlt a' hj' rest other hother => ?_, fun i' hlt group' hi' a' ha' rest other hother => ?_⟩
    · exact hearlier earlier hbefore other ((hcons i j earlier other).2 ⟨group, a, hi, hj, hother⟩)
    · exact hitems j' hlt rest other ((hcons i j' rest other).2 ⟨group, a', hi, hj', hother⟩)
    · obtain ⟨j', hj'⟩ := List.mem_iff_getElem?.1 ha'
      exact hgroups i' hlt j' rest other ((hcons i' j' rest other).2 ⟨group', a', hi', hj', hother⟩)
  · rintro ⟨hhere, group, a, hi, hj, ⟨hb, hearlier⟩, hitems, hgroups⟩
    refine ⟨(hcons i j address b).2 ⟨group, a, hi, hj, hb⟩, forall_before_cons_iff.2
      ⟨fun other hother => ?_, fun i' hlt j' rest other hother => ?_,
        fun j' hlt rest other hother => ?_, fun earlier hbefore other hother => ?_⟩⟩
    · rw [hnil, hhere] at hother
      cases hother
    · obtain ⟨group', a', hi', hj', hother⟩ := (hcons i' j' rest other).1 hother
      exact hgroups i' hlt group' hi' a' (List.mem_of_getElem? hj') rest other hother
    · obtain ⟨group', a', hi', hj', hother⟩ := (hcons i j' rest other).1 hother
      cases hi.symm.trans hi'
      exact hitems j' hlt a' hj' rest other hother
    · obtain ⟨group', a', hi', hj', hother⟩ := (hcons i j earlier other).1 hother
      cases hi.symm.trans hi'
      cases hj.symm.trans hj'
      exact hearlier earlier hbefore other hother

/-- **A search that goes down a tree** finds what is first: what the root gives, or else what is found first
below it, group by group. -/
theorem Finds.of_groups {search : α → Option β} (hnil : ∀ b, At [] b ↔ here = some b)
    (hcons : ∀ i j address b, At ((i, j) :: address) b ↔
      ∃ group a, groups[i]? = some group ∧ (items group)[j]? = some a ∧ below a address b)
    (ih : ∀ group ∈ groups, ∀ a ∈ items group, Finds (below a) (search a)) :
    Finds At (here.or (groups.findSome? fun group => (items group).findSome? search)) := by
  have ih' : ∀ {i j group a}, groups[i]? = some group → (items group)[j]? = some a →
      Finds (below a) (search a) :=
    fun hi hj => ih _ (List.mem_of_getElem? hi) _ (List.mem_of_getElem? hj)
  refine ⟨?_, fun b => ?_⟩
  · rw [Option.or_eq_none_iff, forall_not_iff hnil hcons]
    simp only [List.findSome?_eq_none_iff]
    exact and_congr_right fun _ => forall₂_congr fun group hgroup => forall₂_congr fun a ha =>
      (ih group hgroup a ha).none_iff
  · cases hhere : here with
    | some c =>
      rw [Option.some_or, Option.some.injEq]
      constructor
      · rintro rfl
        exact ⟨[], (hnil c).2 hhere, nofun⟩
      · rintro ⟨_ | ⟨step, address⟩, hb, hearlier⟩
        · exact Option.some.inj (hhere.symm.trans ((hnil b).1 hb))
        · -- the root comes before
          exact absurd ((hnil c).2 hhere) (hearlier [] .nil c)
    | none =>
      rw [Option.none_or]
      simp only [findSome?_eq_some_iff_getElem?, List.findSome?_eq_none_iff]
      constructor
      · rintro ⟨i, group, hi, ⟨j, a, hj, hfound, hitems⟩, hgroups⟩
        obtain ⟨address, hfirst⟩ := ((ih' hi hj).some_iff b).1 hfound
        exact ⟨(i, j) :: address, (first_cons_iff hnil hcons).2 ⟨hhere, group, a, hi, hj, hfirst,
          fun j' hlt a' hj' => (ih' hi hj').none_iff.1 (hitems j' hlt a' hj'),
          fun i' hlt group' hi' a' ha' =>
            (ih group' (List.mem_of_getElem? hi') a' ha').none_iff.1 (hgroups i' hlt group' hi' a' ha')⟩⟩
      · rintro ⟨_ | ⟨⟨i, j⟩, address⟩, hfirst⟩
        · have hb := (hnil b).1 hfirst.found
          rw [hhere] at hb
          cases hb
        · obtain ⟨-, group, a, hi, hj, hfirst, hitems, hgroups⟩ := (first_cons_iff hnil hcons).1 hfirst
          exact ⟨i, group, hi,
            ⟨j, a, hj, ((ih' hi hj).some_iff b).2 ⟨address, hfirst⟩,
              fun j' hlt a' hj' => (ih' hi hj').none_iff.2 (hitems j' hlt a' hj')⟩,
            fun i' hlt group' hi' a' ha' =>
              (ih group' (List.mem_of_getElem? hi') a' ha').none_iff.2 (hgroups i' hlt group' hi' a' ha')⟩

end

end Address

namespace Node

/-- The first node of a tree with a property is the root, or the first in a field. -/
theorem find?_preorder_eq (p : Node → Bool) (root : Node) :
    root.preorder.find? p =
      (Option.guard p root).or (root.fields.findSome? fun field =>
        field.nodes.findSome? fun below => below.preorder.find? p) := by
  rw [preorder_eq, List.find?_cons, Option.guard]
  cases p root with
  | true => rfl
  | false => simp [List.find?_flatMap]

/-- **The first node of a tree with a property** is the one at the first address at which there is
such a node. -/
theorem finds_preorder (p : Node → Bool) (root : Node) :
    Address.Finds (fun address node => root.at? address = some node ∧ p node = true)
      (root.preorder.find? p) := by
  induction root using Node.induction with
  | step root ih =>
    rw [find?_preorder_eq]
    refine .of_groups (fun node => ?_) (fun i j address node => ?_) ih
    · rw [Option.guard_eq_some_iff, at?, Option.some.injEq]
      exact and_congr_right fun heq => by rw [heq]
    · simp only [at?_cons_eq_some_iff, ← exists_and_right, and_assoc]

theorem find?_preorder_eq_none_iff {p : Node → Bool} {root : Node} :
    root.preorder.find? p = none ↔
      ∀ (address : Address) (node : Node), root.at? address = some node → p node = false := by
  rw [(finds_preorder p root).none_iff]
  simp only [not_and, Bool.not_eq_true]

/-! ## What is reported -/

/-- The first node of a tree that does not fit a source, with its address. -/
structure FirstMisfit (source : String) (root : Node) (address : Address) (node : Node) : Prop where
  found : root.at? address = some node
  misfit : ¬ node.span.Fits source
  earlier : ∀ (earlier : Address) (other : Node), earlier.Before address →
    root.at? earlier = some other → other.span.Fits source

variable {root node : Node} {source : String}

theorem find?_misfit_eq_some_iff :
    (root.preorder.find? fun node => (node.span.slice source).isNone) = some node ↔
      ∃ address, root.FirstMisfit source address node := by
  rw [(finds_preorder _ root).some_iff]
  simp only [← Bool.not_eq_false, ← Span.fits_iff]
  constructor
  · rintro ⟨address, ⟨hfound, hmisfit⟩, hearlier⟩
    exact ⟨address, hfound, hmisfit, fun earlier other hbefore hother =>
      not_not.1 (not_and.1 (hearlier earlier hbefore other) hother)⟩
  · rintro ⟨address, hfound, hmisfit, hearlier⟩
    exact ⟨address, ⟨hfound, hmisfit⟩, fun earlier hbefore other ⟨hother, hnot⟩ =>
      hnot (hearlier earlier other hbefore hother)⟩

theorem validate_eq_ok_iff :
    root.validate source = .ok () ↔
      ∀ (address : Address) (node : Node), root.at? address = some node → node.span.Fits source := by
  simp only [Span.fits_iff, ← find?_preorder_eq_none_iff]
  unfold validate
  cases root.preorder.find? fun node => (node.span.slice source).isNone with
  | none => simp [pure, Except.pure]
  | some node => simp [throw, throwThe, MonadExceptOf.throw]

theorem validate_eq_error_iff {fault : Fault} :
    root.validate source = .error fault ↔
      ∃ address node, root.FirstMisfit source address node ∧
        fault = .misfit node.kind node.span source.utf8ByteSize := by
  have hfind : (∃ address node, root.FirstMisfit source address node ∧
        fault = .misfit node.kind node.span source.utf8ByteSize) ↔
      ∃ node, (root.preorder.find? fun node => (node.span.slice source).isNone) = some node ∧
        fault = .misfit node.kind node.span source.utf8ByteSize := by
    simp only [find?_misfit_eq_some_iff, ← exists_and_right]
    exact exists_comm
  rw [hfind]
  unfold validate
  cases root.preorder.find? fun node => (node.span.slice source).isNone with
  | none => simp [pure, Except.pure]
  | some node => simp [throw, throwThe, MonadExceptOf.throw, eq_comm]

/-- **No span of a tree that is loaded is inverted.** -/
theorem ordered_of_ofJson {json : Json} {root node : Node} (h : ofJson json = .ok root)
    {address : Address} (hnode : root.at? address = some node) : node.span.start ≤ node.span.stop := by
  refine Json.forall_of_field? (D := fun _ => True) (P := fun node => node.span.start ≤ node.span.stop)
    (fun _ _ _ _ => trivial) ?_ json trivial (field?_of_ofJson h .children) root List.mem_cons_self node
    (mem_preorder_iff_at?.2 ⟨address, hnode⟩)
  intro tag fields node _ hload
  obtain ⟨span, found, hspan, -, rfl⟩ := loadNode_eq_ok_iff.1 hload
  exact (loadSpan_canonical hspan).1

end Node

/-- **Validation accepts a tree if all its nodes fit, and otherwise reports the first that does not.**
The message names its kind, its range as it stands and the length of the source. The label is the range
cut off at the end of the source, and if the tree has been loaded, its ends are in order. -/
theorem validate_firstMisfit (root : Node) (source : String) :
    (root.validate source = .ok () ↔
      ∀ (address : Address) (node : Node), root.at? address = some node → node.span.Fits source) ∧
    (∀ (address : Address) (node : Node), root.FirstMisfit source address node →
      root.validate source = .error (.misfit node.kind node.span source.utf8ByteSize)) ∧
    ∀ fault, root.validate source = .error fault →
      ∃ (address : Address) (node : Node) (label : Span), root.FirstMisfit source address node ∧
        fault.code = "plainmark::span" ∧
        fault.message = "`" ++ node.kind.tag ++ "` node range " ++ Nat.repr node.span.start ++ ".." ++
          Nat.repr node.span.stop ++ " does not fit a " ++ Nat.repr source.utf8ByteSize ++
          "-byte source" ∧
        fault.label? = some label ∧
        label.start = min node.span.start source.utf8ByteSize ∧
        label.stop = min node.span.stop source.utf8ByteSize ∧
        label.start ≤ source.utf8ByteSize ∧ label.stop ≤ source.utf8ByteSize ∧
        ∀ json, Node.ofJson json = .ok root → label.start ≤ label.stop := by
  refine ⟨Node.validate_eq_ok_iff, fun address node hfirst => ?_, fun fault hfault => ?_⟩
  · exact Node.validate_eq_error_iff.2 ⟨address, node, hfirst, rfl⟩
  · obtain ⟨address, node, hfirst, rfl⟩ := Node.validate_eq_error_iff.1 hfault
    refine ⟨address, node, node.span.clamp source.utf8ByteSize, hfirst, rfl, rfl, rfl, rfl, rfl,
      Nat.min_le_right _ _, Nat.min_le_right _ _, fun json hjson => ?_⟩
    have hordered := Node.ordered_of_ofJson hjson hfirst.found
    dsimp only [Span.clamp]
    omega

/-- A document for a loop over a term whose operand is not in the source, and with a child that is not
there either. -/
def strayDocument : Json :=
  .record [("type", .text "EachBlock"), ("start", .natural 0), ("end", .natural 3),
    ("expression", .record [("type", .text "Term"), ("start", .natural 0), ("end", .natural 1),
      ("left", .record [("type", .text "Operand"), ("start", .natural 2), ("end", .natural 7)])]),
    ("children", .list [.record [("type", .text "Text"), ("start", .natural 9), ("end", .natural 12)]])]

def strayOperand : Node :=
  { kind := .other "Operand", span := ⟨2, 7⟩ }

def strayRoot : Node :=
  { kind := .eachBlock
    span := ⟨0, 3⟩
    fields := [
      .one .expression
        { kind := .other "Term", span := ⟨0, 1⟩, fields := [.one (.other "left") strayOperand] },
      .many .children [{ kind := .text, span := ⟨9, 12⟩ }]] }

theorem validate_firstMisfit_strayRoot :
    Node.ofJson strayDocument = .ok strayRoot ∧
      strayRoot.validate "aé" = .error (.misfit strayOperand.kind strayOperand.span 3) ∧
      ∃ (address : Address) (node : Node) (label : Span), strayRoot.FirstMisfit "aé" address node ∧
        strayRoot.validate "aé" = .error (.misfit node.kind node.span 3) ∧
        label = node.span.clamp 3 ∧ label.start ≤ label.stop := by
  have hload : Node.ofJson strayDocument = .ok strayRoot := rfl
  -- the operand starts within a character and ends beyond the source
  have hfault : strayRoot.validate "aé" = .error (.misfit strayOperand.kind strayOperand.span 3) := by
    decide +kernel
  obtain ⟨-, hfirst, hreport⟩ := validate_firstMisfit strayRoot "aé"
  obtain ⟨address, node, label, hnode, -, -, -, hstart, hstop, -, -, hordered⟩ := hreport _ hfault
  have hlabel : label = node.span.clamp 3 := by
    cases label
    exact congrArg₂ Span.mk hstart hstop
  exact ⟨hload, hfault, address, node, label, hnode, hfirst address node hnode, hlabel,
    hordered strayDocument hload⟩

end TemplateCode
