import TemplateCode.Proofs.Fitting
import TemplateCode.Proofs.Ignored

/-!
# Why a document is refused

A document is refused if it is no record with a type tag, or if one of the records that nodes are loaded
from has a range that cannot be loaded. The fault is that of the first such record, where a record comes
before those in its entries, and these come in order.

* `Json.Reaches`: the records that nodes are loaded from, with their addresses.
* `fault?_ofJson`: the fault of a record is that of its range, or else the first in its entries.
* `finds_fault?_ofJson`: the fault of a document is the first that there is.
* `Json.Inert`: records and lists that are no nodes, whatever is in them.
* `ofJson_firstFault`: which documents are refused, and what is reported of them.
-/

namespace TemplateCode

namespace Json

/-! ## Records that nodes are loaded from -/

/-- The records that nodes are loaded from, starting with the root. An entry leads to its value, if that is
a typed record, or to the items of its value, if all of them are. The address says which entry it is, and
which item. -/
inductive Reaches : Json → Address → Json → Prop
  | here (json : Json) : Reaches json [] json
  | value {fields : List (String × Json)} {i : Nat} {key : String} {value reached : Json}
      {address : Address} (hentry : fields[i]? = some (key, value)) (hkey : key ∉ reservedKeys)
      (htyped : value.Typed) (h : Reaches value address reached) :
      Reaches (.record fields) ((i, 0) :: address) reached
  | item {fields : List (String × Json)} {i j : Nat} {key : String} {items : List Json}
      {item reached : Json} {address : Address} (hentry : fields[i]? = some (key, .list items))
      (hkey : key ∉ reservedKeys) (htyped : ∀ item ∈ items, item.Typed) (hitem : items[j]? = some item)
      (h : Reaches item address reached) : Reaches (.record fields) ((i, j) :: address) reached

/-- A record whose range cannot be loaded, and what is reported of it. -/
def BadRange (json : Json) (fault : Malformation) : Prop :=
  ∃ fields tag, json = .record fields ∧ fields.lookup "type" = some (.text tag) ∧
    Misranged tag fields fault

/-- There is a record at an address whose range cannot be loaded. -/
def BadRangeAt (json : Json) (address : Address) (fault : Malformation) : Prop :=
  ∃ reached, json.Reaches address reached ∧ reached.BadRange fault

/-- Whether a value is a record with a type tag. -/
def isTyped : Json → Bool
  | .record fields => (typeTag? fields).isSome
  | _ => false

theorem isTyped_iff {json : Json} : json.isTyped = true ↔ json.Typed := by
  cases json with
  | record fields => rw [typed_record_iff, isTyped, Option.isSome_iff_exists]
  | null | bool | natural | numeral | text | list =>
    refine iff_of_false nofun ?_
    rintro ⟨_, _, heq, _⟩
    cases heq

instance (json : Json) : Decidable json.Typed :=
  decidable_of_iff _ isTyped_iff

/-- The records of nodes in a value: itself, or its items. -/
def nodeRecords : Json → List Json
  | .list items => if items.all isTyped then items else []
  | .record fields => if (Json.record fields).isTyped then [.record fields] else []
  | _ => []

theorem nodeRecords_of_typed {json : Json} (h : json.Typed) : json.nodeRecords = [json] := by
  obtain ⟨fields, tag, rfl, htag⟩ := h
  exact if_pos (isTyped_iff.2 ⟨fields, tag, rfl, htag⟩)

theorem nodeRecords_of_forall_typed {items : List Json} (h : ∀ item ∈ items, item.Typed) :
    nodeRecords (.list items) = items :=
  if_pos (List.all_eq_true.2 fun item hitem => isTyped_iff.2 (h item hitem))

theorem nodeRecords_of_not_holdsNodes {json : Json} (h : ¬json.HoldsNodes) : json.nodeRecords = [] := by
  cases json with
  | list items =>
    refine if_neg fun hall => h (Or.inr ⟨items, rfl, fun item hitem => ?_⟩)
    exact isTyped_iff.1 (List.all_eq_true.1 hall item hitem)
  | record fields => exact if_neg fun htyped => h (Or.inl (isTyped_iff.1 htyped))
  | null | bool | natural | numeral | text => rfl

/-- The records of nodes in an entry. -/
def entryRecords (entry : String × Json) : List Json :=
  if entry.1 ∈ reservedKeys then [] else entry.2.nodeRecords

theorem entryRecords_eq {key : String} (h : key ∉ reservedKeys) (value : Json) :
    entryRecords (key, value) = value.nodeRecords :=
  if_neg h

theorem mem_entryRecords_iff {key : String} {value below : Json} :
    below ∈ entryRecords (key, value) ↔ key ∉ reservedKeys ∧ below ∈ value.nodeRecords := by
  by_cases hkey : key ∈ reservedKeys <;> simp [entryRecords, hkey]

/-- A property that passes from the records in the entries of a typed record to the record holds of every
typed record. -/
theorem Typed.induction {P : Json → Prop}
    (step : ∀ fields tag, typeTag? fields = some tag →
      (∀ entry ∈ fields, ∀ below ∈ entryRecords entry, P below) → P (.record fields))
    {json : Json} (h : json.Typed) : P json := by
  -- the induction goes through lists too
  have hall : ∀ json : Json, ∀ below ∈ json.nodeRecords, P below := by
    intro json
    induction json using Json.induction with
    | step json ih =>
      intro below hbelow
      by_cases hholds : json.HoldsNodes
      · rcases hholds with htyped | ⟨items, rfl, htyped⟩
        · rw [nodeRecords_of_typed htyped, List.mem_singleton] at hbelow
          subst hbelow
          obtain ⟨fields, tag, rfl, htag⟩ := htyped
          refine step fields tag (typeTag?_eq_some_iff.2 htag) ?_
          rintro ⟨key, value⟩ hentry below hbelow
          exact ih value (List.mem_map_of_mem hentry) below (mem_entryRecords_iff.1 hbelow).2
        · rw [nodeRecords_of_forall_typed htyped] at hbelow
          refine ih below hbelow below ?_
          rw [nodeRecords_of_typed (htyped below hbelow)]
          exact List.mem_singleton_self below
      · rw [nodeRecords_of_not_holdsNodes hholds] at hbelow
        cases hbelow
  refine hall json json ?_
  rw [nodeRecords_of_typed h]
  exact List.mem_singleton_self json

theorem reaches_nil_iff {json reached : Json} : json.Reaches [] reached ↔ reached = json := by
  constructor
  · rintro ⟨⟩
    rfl
  · rintro rfl
    exact .here reached

theorem reaches_cons_iff {fields : List (String × Json)} {i j : Nat} {address : Address} {reached : Json} :
    (Json.record fields).Reaches ((i, j) :: address) reached ↔
      ∃ entry below, fields[i]? = some entry ∧ (entryRecords entry)[j]? = some below ∧
        below.Reaches address reached := by
  constructor
  · intro h
    cases h with
    | value hentry hkey htyped h =>
      refine ⟨_, _, hentry, ?_, h⟩
      rw [entryRecords_eq hkey, nodeRecords_of_typed htyped]
      rfl
    | item hentry hkey htyped hitem h =>
      refine ⟨_, _, hentry, ?_, h⟩
      rw [entryRecords_eq hkey, nodeRecords_of_forall_typed htyped]
      exact hitem
  · rintro ⟨⟨key, value⟩, below, hentry, hbelow, h⟩
    obtain ⟨hkey, -⟩ := mem_entryRecords_iff.1 (List.mem_of_getElem? hbelow)
    rw [entryRecords_eq hkey] at hbelow
    by_cases hholds : value.HoldsNodes
    · rcases hholds with htyped | ⟨items, rfl, htyped⟩
      · rw [nodeRecords_of_typed htyped] at hbelow
        cases j with
        | zero =>
          cases hbelow
          exact .value hentry hkey htyped h
        | succ j => cases hbelow
      · rw [nodeRecords_of_forall_typed htyped] at hbelow
        exact .item hentry hkey htyped hbelow h
    · rw [nodeRecords_of_not_holdsNodes hholds] at hbelow
      cases hbelow

end Json

/-! ## Faults -/

/-- The fault of what cannot be loaded. -/
def fault? {α : Type} : Loaded α → Option Malformation
  | .error fault => some fault
  | .ok _ => none

theorem fault?_eq_some_iff {α : Type} {loaded : Loaded α} {fault : Malformation} :
    fault? loaded = some fault ↔ loaded = .error fault := by
  cases loaded <;> simp [fault?]

theorem fault?_eq_none_iff {α : Type} {loaded : Loaded α} :
    fault? loaded = none ↔ ¬∃ fault, loaded = .error fault := by
  cases loaded <;> simp [fault?]

theorem fault?_map {α β : Type} (f : α → β) (loaded : Loaded α) : fault? (loaded.map f) = fault? loaded := by
  cases loaded <;> rfl

/-- The fault of a list is the first in it. -/
theorem fault?_mapM {α β : Type} (f : α → Loaded β) (items : List α) :
    fault? (items.mapM f) = items.findSome? fun item => fault? (f item) := by
  induction items with
  | nil => rfl
  | cons item items ih =>
    rw [List.mapM_cons, List.findSome?_cons, ← ih]
    cases f item with
    | error fault => rfl
    | ok first => cases items.mapM f <;> rfl

theorem fault?_field? (slot : Slot) (content : Content) :
    fault? (content.field? slot) = match content with
      | .nothing => none
      | .node loaded => fault? loaded
      | .nodes loaded => fault? loaded := by
  cases content with
  | nothing => rfl
  | node loaded => cases loaded <;> rfl
  | nodes loaded => cases loaded <;> rfl

theorem fault?_loadNode (tag : String) (fields : List (String × Json))
    (entries : List (String × Json × Content)) :
    fault? (loadNode tag fields entries) =
      (fault? (loadSpan tag fields)).or (entries.findSome? fun entry => fault? (entryField? entry)) := by
  unfold loadNode
  simp only [foldlM_loadField, ← fault?_mapM]
  cases loadSpan tag fields with
  | error fault => rfl
  | ok span => exact fault?_map _ _

theorem Node.ofJson_of_content {json : Json} {loaded : Loaded Node} (h : json.content = .node loaded) :
    Node.ofJson json = loaded := by
  unfold Node.ofJson
  rw [h]

theorem Node.ofJson_of_not_typed {json : Json} (h : ¬json.Typed) : Node.ofJson json = .error .untyped := by
  unfold Node.ofJson
  split
  · rename_i loaded hloaded
    exact absurd (Json.typed_iff.2 ⟨loaded, hloaded⟩) h
  · rfl

/-- The items of a list of typed records are what these are loaded as. -/
theorem map_content_eq {items : List Json} (h : ∀ item ∈ items, item.Typed) :
    items.map Json.content = (items.map Node.ofJson).map .node := by
  rw [List.map_map]
  refine List.map_congr_left fun item hitem => ?_
  obtain ⟨loaded, hloaded⟩ := Json.typed_iff.1 (h item hitem)
  rw [Function.comp_apply, Node.ofJson_of_content hloaded, hloaded]

theorem content_list_of_forall_typed {items : List Json} (h : ∀ item ∈ items, item.Typed) :
    Json.content (.list items) = .nodes (items.mapM Node.ofJson) := by
  rw [Json.content_list, Content.ofItems, Content.mapM_node?_eq_some_iff.2 (map_content_eq h)]
  simp [List.mapM_map]

/-- **The fault of an entry** is the first in the records of nodes in it. -/
theorem fault?_entryField? (key : String) (value : Json) :
    fault? (entryField? (key, value, value.content)) =
      (Json.entryRecords (key, value)).findSome? fun below => fault? (Node.ofJson below) := by
  by_cases hkey : key ∈ reservedKeys
  · have hslot : isSlotEntry key value = false := by simp [isSlotEntry, hkey]
    rw [entryField?_of_not_isSlotEntry hslot, Json.entryRecords, if_pos hkey]
    rfl
  rw [Json.entryRecords_eq hkey]
  by_cases hholds : value.HoldsNodes
  · have hslot : isSlotEntry key value = true := isSlotEntry_iff.2
      ⟨hkey, entryName?_of_isCompound hholds.isCompound, entrySkip?_of_isCompound hholds.isCompound⟩
    rw [entryField?_of_isSlotEntry hslot, fault?_field?]
    rcases hholds with htyped | ⟨items, rfl, htyped⟩
    · obtain ⟨loaded, hloaded⟩ := Json.typed_iff.1 htyped
      rw [Json.nodeRecords_of_typed htyped, List.findSome?_singleton, Node.ofJson_of_content hloaded]
      dsimp only
      rw [hloaded]
    · rw [Json.nodeRecords_of_forall_typed htyped, ← fault?_mapM]
      dsimp only
      rw [content_list_of_forall_typed htyped]
  · rw [Json.nodeRecords_of_not_holdsNodes hholds, List.findSome?_nil]
    unfold entryField?
    dsimp only
    rw [Json.content_eq_nothing_iff.2 hholds]
    split <;> rfl

/-- **The fault of a record** is that of its range, or else the first in its entries. -/
theorem fault?_ofJson {fields : List (String × Json)} {tag : String} (htag : typeTag? fields = some tag) :
    fault? (Node.ofJson (.record fields)) =
      (fault? (loadSpan tag fields)).or (fields.findSome? fun entry =>
        (Json.entryRecords entry).findSome? fun below => fault? (Node.ofJson below)) := by
  have hcontent := Json.content_record fields
  rw [htag] at hcontent
  rw [Node.ofJson_of_content hcontent, fault?_loadNode, List.findSome?_map]
  simp only [Function.comp_def, fault?_entryField?]

/-- **The fault of a document** is the first that there is. -/
theorem finds_fault?_ofJson {json : Json} (h : json.Typed) :
    Address.Finds json.BadRangeAt (fault? (Node.ofJson json)) := by
  refine h.induction (P := fun json => Address.Finds json.BadRangeAt (fault? (Node.ofJson json))) ?_
  intro fields tag htag ih
  rw [fault?_ofJson htag]
  refine .of_groups (fun fault => ?_) (fun i j address fault => ?_) ih
  · simp only [Json.BadRangeAt, Json.reaches_nil_iff, exists_eq_left, fault?_eq_some_iff,
      loadSpan_eq_error_iff]
    constructor
    · rintro ⟨fields', tag', heq, htag', hfault⟩
      cases heq
      cases htag.symm.trans (typeTag?_eq_some_iff.2 htag')
      exact hfault
    · intro hfault
      exact ⟨fields, tag, rfl, typeTag?_eq_some_iff.1 htag, hfault⟩
  · simp only [Json.BadRangeAt, Json.reaches_cons_iff]
    constructor
    · rintro ⟨reached, ⟨entry, below, hentry, hbelow, hreached⟩, hfault⟩
      exact ⟨entry, below, hentry, hbelow, reached, hreached, hfault⟩
    · rintro ⟨entry, below, hentry, hbelow, reached, hreached, hfault⟩
      exact ⟨reached, ⟨entry, below, hentry, hbelow, hreached⟩, hfault⟩

/-! ## What is refused -/

/-- A value that nothing is loaded from, whatever is in it: a record without a type tag, or a list with an
item that is no typed record. -/
inductive Json.Inert : Json → Prop
  | record {fields : List (String × Json)} (h : ¬(Json.record fields).Typed) : Inert (.record fields)
  | list {items : List Json} {item : Json} (hitem : item ∈ items) (h : ¬item.Typed) : Inert (.list items)

theorem Json.Inert.content_eq {json : Json} (h : json.Inert) :
    json.isCompound = true ∧ json.content = .nothing := by
  cases h with
  | record h =>
    refine ⟨rfl, content_eq_nothing_iff.2 ?_⟩
    rintro (htyped | ⟨_, heq, _⟩)
    · exact h htyped
    · cases heq
  | list hitem h => exact ⟨rfl, content_list_eq_nothing_iff.2 fun hall => h (hall _ hitem)⟩

/-- **Which documents are refused, and why.** A document is refused if it is no typed record, or if some
record that nodes are loaded from has a range that cannot be loaded; what is reported is that it is untyped,
or what is wrong with the first such range. Other ranges do not matter: in records without a type tag, and in
lists with other items, anything may be put in place of what is there. -/
theorem ofJson_firstFault (json : Json) :
    ((∃ fault, Node.ofJson json = .error fault) ↔
      ¬json.Typed ∨ ∃ address fault, json.BadRangeAt address fault) ∧
    (¬json.Typed → Node.ofJson json = .error .untyped) ∧
    (json.Typed → ∀ fault, Node.ofJson json = .error fault ↔
      ∃ address, Address.First json.BadRangeAt address fault) ∧
    ∀ json', DifferBy (fun value value' => value.Inert ∧ value'.Inert) json json' →
      Node.ofJson json = Node.ofJson json' := by
  refine ⟨?_, Node.ofJson_of_not_typed, fun htyped fault => ?_, fun json' hdiffer => ?_⟩
  · by_cases htyped : json.Typed
    · have hnone := (finds_fault?_ofJson htyped).none_iff
      rw [fault?_eq_none_iff, ← not_iff_not] at hnone
      simpa only [htyped, not_true, false_or, not_forall, not_not] using hnone
    · exact iff_of_true ⟨_, Node.ofJson_of_not_typed htyped⟩ (Or.inl htyped)
  · rw [← fault?_eq_some_iff]
    exact (finds_fault?_ofJson htyped).some_iff fault
  · refine hdiffer.ofJson_eq fun value value' h => ?_
    exact ⟨h.1.content_eq.1, h.2.content_eq.1, h.1.content_eq.2.trans h.2.content_eq.2.symm⟩

theorem ofJson_firstFault_openDocument :
    Node.ofJson mixedList = .error .untyped ∧
      Node.ofJson (openDocument [("extra", mixedList)]) = .error (.inverted "Text" 3 1) ∧
      (∃ address, Address.First (openDocument [("extra", mixedList)]).BadRangeAt address
        (.inverted "Text" 3 1)) ∧
      Node.ofJson (openDocument [("extra", .record [])]) = .error (.inverted "Text" 3 1) := by
  have hfault : Node.ofJson (openDocument [("extra", mixedList)]) = .error (.inverted "Text" 3 1) := rfl
  have hmixed : mixedList.Inert :=
    .list (List.mem_cons_of_mem _ (List.mem_singleton_self (Json.natural 1))) (by decide)
  have hempty : (Json.record []).Inert := .record (by decide)
  -- the way to the entry: the last entry of the document, the first item in it, and its second entry
  have hdiffer : DifferBy (fun value value' => value.Inert ∧ value'.Inert)
      (openDocument [("extra", mixedList)]) (openDocument [("extra", .record [])]) :=
    .entry [("type", .text "Fragment"), ("start", .natural 0), ("end", .natural 9)] [] "children"
      (.item [] _ (.entry [("type", .text "Text")] _ "extra" (.here ⟨hmixed, hempty⟩)))
  obtain ⟨-, -, hfirst, hinert⟩ := ofJson_firstFault (openDocument [("extra", mixedList)])
  exact ⟨(ofJson_firstFault mixedList).2.1 (by decide), hfault, (hfirst (by decide) _).1 hfault,
    (hinert _ hdiffer).symm.trans hfault⟩

end TemplateCode
