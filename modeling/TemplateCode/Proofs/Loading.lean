import TemplateCode.Tree.Load
import Mathlib.Data.List.Forall2
import Mathlib.Data.List.ReduceOption

/-!
# What a record contributes to its node

The entries of a record are gone through in order. Each gives the node a name, marks it, adds a field,
or is ignored.

* `Json.content_record`, `Json.content_list`: the content of a value by that of the values in it.
* `Misranged`: the ranges that cannot be loaded, `loadSpan_eq_error_iff`: what is reported of them.
* `entryField?`: the field that an entry adds, `loadField_eq`: what an entry does to the node.
* `loadNode_eq_ok_iff`: the node of a record, in terms of its entries.
* `Content.ofItems_eq_ok_iff`: when a list is a sequence of nodes.
-/

namespace TemplateCode

namespace Json

theorem itemContents_eq (items : List Json) : itemContents items = items.map content := by
  induction items with
  | nil => rfl
  | cons item items ih => rw [itemContents, ih, List.map_cons]

theorem fieldContents_eq (fields : List (String × Json)) :
    fieldContents fields = fields.map fun (key, value) => (key, value, value.content) := by
  induction fields with
  | nil => rfl
  | cons field fields ih => rw [fieldContents, ih, List.map_cons]

theorem content_record (fields : List (String × Json)) :
    content (.record fields) =
      match typeTag? fields with
      | some tag =>
        .node (loadNode tag fields (fields.map fun (key, value) => (key, value, value.content)))
      | none => .nothing := by
  cases htag : typeTag? fields with
  | none => simp only [content, htag]
  | some tag => simp only [content, htag, fieldContents_eq]

theorem content_list (items : List Json) : content (.list items) = .ofItems (items.map content) := by
  rw [content, itemContents_eq]

end Json

/-! ## Ranges -/

/-- A record of a node that is not in the source: both ends of its range are null. -/
def Unplaced (fields : List (String × Json)) : Prop :=
  fields.lookup "start" = some .null ∧ fields.lookup "end" = some .null

/-- The range of a record cannot be loaded, and this is reported: an end that is no natural number of 64
bits, the start before the end, or else that the end comes before the start. -/
inductive Misranged (tag : String) (fields : List (String × Json)) : Malformation → Prop
  | start (hplaced : ¬Unplaced fields) (h : ∀ n, fields.lookup "start" ≠ some (.natural n)) :
      Misranged tag fields (.missing tag .start)
  | stop {start : UInt64} (hstart : fields.lookup "start" = some (.natural start))
      (h : ∀ n, fields.lookup "end" ≠ some (.natural n)) : Misranged tag fields (.missing tag .stop)
  | inverted {start stop : UInt64} (hstart : fields.lookup "start" = some (.natural start))
      (hstop : fields.lookup "end" = some (.natural stop)) (h : stop < start) :
      Misranged tag fields (.inverted tag start.toNat stop.toNat)

section

variable {tag : String} {fields : List (String × Json)}

theorem loadBound_eq_ok {bound : Bound} {offset : UInt64}
    (h : fields.lookup bound.key = some (.natural offset)) :
    loadBound tag fields bound = .ok offset.toNat := by
  unfold loadBound
  rw [h]
  rfl

theorem loadBound_eq_error {bound : Bound} (h : ∀ n, fields.lookup bound.key ≠ some (.natural n)) :
    loadBound tag fields bound = .error (.missing tag bound) := by
  unfold loadBound
  split
  · rename_i offset hoffset
    exact absurd hoffset (h offset)
  · rfl

theorem loadSpan_of_unplaced (h : Unplaced fields) : loadSpan tag fields = .ok {} := by
  unfold loadSpan Bound.key
  rw [h.1, h.2]
  rfl

theorem loadSpan_of_not_unplaced (h : ¬Unplaced fields) :
    loadSpan tag fields = (do
      let start ← loadBound tag fields .start
      let stop ← loadBound tag fields .stop
      if stop < start then throw (.inverted tag start stop) else return ⟨start, stop⟩) := by
  unfold loadSpan
  split
  · rename_i hstart hstop
    exact absurd ⟨hstart, hstop⟩ h
  · rfl

theorem not_unplaced_of_natural {start : UInt64} (h : fields.lookup "start" = some (.natural start)) :
    ¬Unplaced fields := by
  rintro ⟨hnull, -⟩
  rw [h] at hnull
  cases hnull

/-- The ends of a range are loaded before they are compared. -/
theorem loadSpan_of_naturals {start stop : UInt64} (hstart : fields.lookup "start" = some (.natural start))
    (hstop : fields.lookup "end" = some (.natural stop)) :
    loadSpan tag fields =
      if stop < start then .error (.inverted tag start.toNat stop.toNat)
      else .ok ⟨start.toNat, stop.toNat⟩ := by
  have hfirst : loadBound tag fields .start = .ok start.toNat := loadBound_eq_ok hstart
  have hsecond : loadBound tag fields .stop = .ok stop.toNat := loadBound_eq_ok hstop
  rw [loadSpan_of_not_unplaced (not_unplaced_of_natural hstart), hfirst, hsecond]
  simp only [UInt64.lt_iff_toNat_lt]
  rfl

theorem Misranged.loadSpan_eq {fault : Malformation} (h : Misranged tag fields fault) :
    loadSpan tag fields = .error fault := by
  cases h with
  | start hplaced hstart =>
    have hfirst : loadBound tag fields .start = .error (.missing tag .start) := loadBound_eq_error hstart
    rw [loadSpan_of_not_unplaced hplaced, hfirst]
    rfl
  | stop hstart hstop =>
    have hfirst : loadBound tag fields .start = .ok _ := loadBound_eq_ok hstart
    have hsecond : loadBound tag fields .stop = .error (.missing tag .stop) := loadBound_eq_error hstop
    rw [loadSpan_of_not_unplaced (not_unplaced_of_natural hstart), hfirst, hsecond]
    rfl
  | inverted hstart hstop hlt => rw [loadSpan_of_naturals hstart hstop, if_pos hlt]

/-- The ends of a range are both null, or natural numbers in order, or there is something to report. -/
theorem loadSpan_cases (tag : String) (fields : List (String × Json)) :
    Unplaced fields ∨
      (∃ start stop : UInt64, fields.lookup "start" = some (.natural start) ∧
        fields.lookup "end" = some (.natural stop) ∧ ¬stop < start) ∨
      ∃ fault, Misranged tag fields fault := by
  by_cases hplaced : Unplaced fields
  · exact Or.inl hplaced
  by_cases hstart : ∃ start, fields.lookup "start" = some (.natural start)
  · obtain ⟨start, hstart⟩ := hstart
    by_cases hstop : ∃ stop, fields.lookup "end" = some (.natural stop)
    · obtain ⟨stop, hstop⟩ := hstop
      by_cases hlt : stop < start
      · exact Or.inr (Or.inr ⟨_, .inverted hstart hstop hlt⟩)
      · exact Or.inr (Or.inl ⟨start, stop, hstart, hstop, hlt⟩)
    · exact Or.inr (Or.inr ⟨_, .stop hstart (not_exists.1 hstop)⟩)
  · exact Or.inr (Or.inr ⟨_, .start hplaced (not_exists.1 hstart)⟩)

/-- **A range is refused** for the reasons that there are. -/
theorem loadSpan_eq_error_iff {fault : Malformation} :
    loadSpan tag fields = .error fault ↔ Misranged tag fields fault := by
  refine ⟨fun h => ?_, Misranged.loadSpan_eq⟩
  rcases loadSpan_cases tag fields with hplaced | ⟨start, stop, hstart, hstop, hle⟩ | ⟨fault', hfault⟩
  · rw [loadSpan_of_unplaced hplaced] at h
    cases h
  · rw [loadSpan_of_naturals hstart hstop, if_neg hle] at h
    cases h
  · obtain rfl : fault' = fault := Except.error.inj (hfault.loadSpan_eq.symm.trans h)
    exact hfault

end

/-! ## Entries -/

/-- The name that an entry of a record gives to the node. -/
def entryName? : String → Json → Option String
  | "name", .text name => some name
  | _, _ => none

/-- The mark that an entry of a record gives to the node. -/
def entrySkip? : String → Json → Option Bool
  | "skip", .bool skip => some skip
  | _, _ => none

theorem entryName?_eq_some_iff {key name : String} {value : Json} :
    entryName? key value = some name ↔ key = "name" ∧ value = .text name := by
  unfold entryName?
  split
  · simp
  · rename_i hother
    simpa using fun hkey hvalue => hother name hkey hvalue

theorem entrySkip?_eq_some_iff {key : String} {value : Json} {skip : Bool} :
    entrySkip? key value = some skip ↔ key = "skip" ∧ value = .bool skip := by
  unfold entrySkip?
  split
  · simp
  · rename_i hother
    simpa using fun hkey hvalue => hother skip hkey hvalue

/-- The keys under which a record has its type tag and its range. -/
def reservedKeys : List String := ["type", "start", "end"]

/-- Whether the value of an entry is looked at for nodes. -/
def isSlotEntry (key : String) (value : Json) : Bool :=
  key ∉ reservedKeys && (entryName? key value).isNone && (entrySkip? key value).isNone

theorem isSlotEntry_iff {key : String} {value : Json} :
    isSlotEntry key value = true ↔
      key ∉ reservedKeys ∧ entryName? key value = none ∧ entrySkip? key value = none := by
  simp [isSlotEntry, and_assoc]

theorem entryName?_eq_none {key : String} {value : Json} (h : key = "name" → isSlotEntry key value = true) :
    entryName? key value = none := by
  refine Option.eq_none_iff_forall_ne_some.2 fun name hname => ?_
  have hnone := (isSlotEntry_iff.1 (h (entryName?_eq_some_iff.1 hname).1)).2.1
  rw [hname] at hnone
  cases hnone

theorem entrySkip?_eq_none {key : String} {value : Json} (h : key = "skip" → isSlotEntry key value = true) :
    entrySkip? key value = none := by
  refine Option.eq_none_iff_forall_ne_some.2 fun skip hskip => ?_
  have hnone := (isSlotEntry_iff.1 (h (entrySkip?_eq_some_iff.1 hskip).1)).2.2
  rw [hskip] at hnone
  cases hnone

theorem isSlotEntry_of_ne {key : String} {value : Json} (hkey : key ∉ reservedKeys)
    (hname : ∀ name, value ≠ .text name) (hskip : ∀ skip, value ≠ .bool skip) :
    isSlotEntry key value = true := by
  refine isSlotEntry_iff.2 ⟨hkey, ?_, ?_⟩
  · exact Option.eq_none_iff_forall_ne_some.2 fun name h => hname name (entryName?_eq_some_iff.1 h).2
  · exact Option.eq_none_iff_forall_ne_some.2 fun skip h => hskip skip (entrySkip?_eq_some_iff.1 h).2

/-- The field that an entry adds to the node, if it adds one. -/
def entryField? (entry : String × Json × Content) : Loaded (Option Field) :=
  if isSlotEntry entry.1 entry.2.1 then entry.2.2.field? (.ofKey entry.1) else return none

/-- A node with what an entry contributes to it. -/
def Node.enter (node : Node) (entry : String × Json × Content) (found : Option Field) : Node :=
  { node with
    name := (entryName? entry.1 entry.2.1).or node.name
    skip := (entrySkip? entry.1 entry.2.1).getD node.skip
    fields := node.fields ++ found.toList }

theorem entryField?_of_isSlotEntry {entry : String × Json × Content}
    (h : isSlotEntry entry.1 entry.2.1 = true) : entryField? entry = entry.2.2.field? (.ofKey entry.1) :=
  if_pos h

theorem entryField?_of_not_isSlotEntry {entry : String × Json × Content}
    (h : isSlotEntry entry.1 entry.2.1 = false) : entryField? entry = .ok none :=
  if_neg (by rw [h]; decide)

/-- A value is a field of a node if it is a node, or a sequence of nodes, that can be loaded. -/
theorem Content.field?_eq_ok_some_iff {slot : Slot} {content : Content} {field : Field} :
    content.field? slot = .ok (some field) ↔
      (∃ node, content = .node (.ok node) ∧ field = .one slot node) ∨
        ∃ nodes, content = .nodes (.ok nodes) ∧ field = .many slot nodes := by
  cases content with
  | nothing => simp [field?, pure, Except.pure]
  | node loaded => cases loaded <;> simp [field?, bind, Except.bind, pure, Except.pure, eq_comm]
  | nodes loaded => cases loaded <;> simp [field?, bind, Except.bind, pure, Except.pure, eq_comm]

theorem Content.slot_of_field? {slot : Slot} {content : Content} {field : Field}
    (h : content.field? slot = .ok (some field)) : field.slot = slot := by
  rcases field?_eq_ok_some_iff.1 h with ⟨node, -, rfl⟩ | ⟨nodes, -, rfl⟩
  · rfl
  · rfl

theorem entryField?_eq_ok_some_iff {entry : String × Json × Content} {field : Field} :
    entryField? entry = .ok (some field) ↔
      isSlotEntry entry.1 entry.2.1 = true ∧ entry.2.2.field? (.ofKey entry.1) = .ok (some field) := by
  unfold entryField?
  split
  · simp [*]
  · simp [*, pure, Except.pure]

theorem loadField_eq (node : Node) (entry : String × Json × Content) :
    loadField node entry = (entryField? entry).map (node.enter entry) := by
  obtain ⟨key, value, content⟩ := entry
  have hnode : node = ⟨node.kind, node.span, node.name, node.skip, node.fields⟩ := by
    cases node
    rfl
  unfold loadField
  split
  case h_1 | h_2 | h_3 =>
    rename_i heq
    obtain ⟨rfl, -⟩ := Prod.mk.inj heq
    rw [entryField?_of_not_isSlotEntry rfl]
    simp [Except.map, Node.enter, entryName?, entrySkip?, ← hnode, pure, Except.pure]
  case h_4 | h_5 =>
    rename_i heq
    cases heq
    rw [entryField?_of_not_isSlotEntry rfl]
    simp [Except.map, Node.enter, entryName?, entrySkip?, pure, Except.pure]
  case h_6 =>
    rename_i key' value' content' htype hstart hend hname hskip heq
    cases heq
    have hname' : entryName? key value = none :=
      Option.eq_none_iff_forall_ne_some.2 fun name h =>
        hname name (entryName?_eq_some_iff.1 h).1 (entryName?_eq_some_iff.1 h).2
    have hskip' : entrySkip? key value = none :=
      Option.eq_none_iff_forall_ne_some.2 fun skip h =>
        hskip skip (entrySkip?_eq_some_iff.1 h).1 (entrySkip?_eq_some_iff.1 h).2
    have hslot : isSlotEntry key value = true :=
      isSlotEntry_iff.2 ⟨by simpa [reservedKeys] using ⟨htype, hstart, hend⟩, hname', hskip'⟩
    rw [entryField?_of_isSlotEntry hslot]
    dsimp only
    cases content.field? (.ofKey key) with
    | error fault => rfl
    | ok found => simp [Except.map, Node.enter, hname', hskip', bind, Except.bind, pure, Except.pure]

/-! ## Records -/

/-- The node that the entries of a record make of a node, given the fields that they add. -/
def Node.enterAll (node : Node) (entries : List (String × Json × Content)) (found : List (Option Field)) :
    Node :=
  { node with
    name := entries.foldl (fun name entry => (entryName? entry.1 entry.2.1).or name) node.name
    skip := entries.foldl (fun skip entry => (entrySkip? entry.1 entry.2.1).getD skip) node.skip
    fields := node.fields ++ found.reduceOption }

/-- **The entries of a record** are gone through in order: the first that cannot be loaded is the
fault. -/
theorem foldlM_loadField (entries : List (String × Json × Content)) (node : Node) :
    entries.foldlM loadField node = (entries.mapM entryField?).map (node.enterAll entries) := by
  induction entries generalizing node with
  | nil =>
    cases node
    simp [Except.map, Node.enterAll, pure, Except.pure]
  | cons entry entries ih =>
    rw [List.foldlM_cons, List.mapM_cons, loadField_eq]
    cases entryField? entry with
    | error fault => rfl
    | ok found =>
      refine (ih (node.enter entry found)).trans ?_
      cases entries.mapM entryField? with
      | error fault => rfl
      | ok rest =>
        cases found <;> simp [Except.map, Node.enterAll, Node.enter, bind, Except.bind, pure, Except.pure]

theorem mapM_eq_ok_iff {ε α β : Type} {f : α → Except ε β} {items : List α} {results : List β} :
    items.mapM f = .ok results ↔ List.Forall₂ (fun item result => f item = .ok result) items results := by
  induction items generalizing results with
  | nil => simp [pure, Except.pure, eq_comm]
  | cons item items ih =>
    rw [List.mapM_cons, List.forall₂_cons_left_iff]
    simp only [← ih]
    cases f item with
    | error fault => simp [bind, Except.bind]
    | ok result => cases items.mapM f <;> simp [bind, Except.bind, pure, Except.pure, eq_comm]

/-- **The node of a record**: its tag is known, its range can be loaded, and so can all its entries. -/
theorem loadNode_eq_ok_iff {tag : String} {fields : List (String × Json)}
    {entries : List (String × Json × Content)} {node : Node} :
    loadNode tag fields entries = .ok node ↔
      ∃ span found, loadSpan tag fields = .ok span ∧
        List.Forall₂ (fun entry field => entryField? entry = .ok field) entries found ∧
        node = Node.enterAll { kind := .ofTag tag, span } entries found := by
  unfold loadNode
  simp only [← mapM_eq_ok_iff, foldlM_loadField]
  cases loadSpan tag fields with
  | error fault => simp [bind, Except.bind]
  | ok span =>
    cases entries.mapM entryField? with
    | error fault => simp [bind, Except.bind, Except.map]
    | ok found => simp [bind, Except.bind, Except.map, eq_comm]

/-! ## Lists -/

namespace Content

theorem mapM_node?_eq_some_iff {items : List Content} {loaded : List (Loaded Node)} :
    items.mapM node? = some loaded ↔ items = loaded.map .node := by
  induction items generalizing loaded with
  | nil => simp [eq_comm]
  | cons item items ih =>
    rw [List.mapM_cons]
    cases item with
    | node first =>
      cases loaded with
      | nil => simp [node?, Option.bind_eq_some_iff]
      | cons first' rest => simp [node?, Option.bind_eq_some_iff, ih, and_comm]
    | nothing => cases loaded <;> simp [node?]
    | nodes _ => cases loaded <;> simp [node?]

theorem mapM_id_eq_ok_iff {loaded : List (Loaded Node)} {nodes : List Node} :
    loaded.mapM id = .ok nodes ↔ loaded = nodes.map .ok := by
  rw [mapM_eq_ok_iff, ← List.forall₂_eq_eq_eq, List.forall₂_map_right_iff]
  rfl

/-- **A list is a sequence of nodes** if all its items are nodes that can be loaded. -/
theorem ofItems_eq_ok_iff {items : List Content} {nodes : List Node} :
    ofItems items = .nodes (.ok nodes) ↔ items = nodes.map fun node => .node (.ok node) := by
  unfold ofItems
  constructor
  · intro h
    split at h
    · rename_i loaded hloaded
      rw [mapM_node?_eq_some_iff.1 hloaded, mapM_id_eq_ok_iff.1 (Content.nodes.inj h), List.map_map]
      rfl
    · cases h
  · rintro rfl
    have hnodes : (nodes.map fun node => Content.node (.ok node)).mapM node? =
        some (nodes.map .ok) := by
      rw [mapM_node?_eq_some_iff, List.map_map]
      rfl
    rw [hnodes]
    dsimp only
    rw [mapM_id_eq_ok_iff.2 rfl]

end Content

end TemplateCode
