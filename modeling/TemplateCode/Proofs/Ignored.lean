import TemplateCode.Proofs.Loading

/-!
# Entries that are not used

A record may have entries that the loader has no use for. Whether they are there, and what is in them,
makes no difference to the tree that is loaded, nor to the fault that is reported.

* `Json.HoldsNodes`: values that nodes are loaded from, `Unused`: entries that nothing is loaded from.
* `DifferBy`: two values that differ in one place, at any depth.
* `DifferBy.content_eq`: if what is there contributes the same, so do the values as a whole.
* `ofJson_ignores`: adding an entry that is not used, or changing it, changes nothing.
-/

namespace TemplateCode

theorem typeTag?_eq_some_iff {fields : List (String × Json)} {tag : String} :
    typeTag? fields = some tag ↔ fields.lookup "type" = some (.text tag) := by
  unfold typeTag?
  split
  · rename_i found hfound
    simp [hfound]
  · rename_i hother
    simpa using hother tag

namespace Json

/-! ## Values that nodes are loaded from -/

/-- A record with a type tag. -/
def Typed (json : Json) : Prop :=
  ∃ fields tag, json = .record fields ∧ fields.lookup "type" = some (.text tag)

/-- A value that nodes are loaded from: a record with a type tag, or a list of such records only. -/
def HoldsNodes (json : Json) : Prop :=
  json.Typed ∨ ∃ items, json = .list items ∧ ∀ item ∈ items, item.Typed

theorem typed_iff {json : Json} : json.Typed ↔ ∃ loaded, json.content = .node loaded := by
  cases json with
  | record fields =>
    rw [content_record]
    cases htag : typeTag? fields with
    | none =>
      simp only [reduceCtorEq, exists_false, iff_false]
      rintro ⟨fields', tag, heq, hlookup⟩
      cases heq
      rw [typeTag?_eq_some_iff.2 hlookup] at htag
      cases htag
    | some tag =>
      simp only [Content.node.injEq, exists_eq', iff_true]
      exact ⟨fields, tag, rfl, typeTag?_eq_some_iff.1 htag⟩
  | list items =>
    rw [content_list]
    unfold Content.ofItems
    constructor
    · rintro ⟨_, _, heq, _⟩
      cases heq
    · rintro ⟨loaded, hloaded⟩
      split at hloaded <;> cases hloaded
  | null | bool | natural | numeral | text =>
    constructor
    · rintro ⟨_, _, heq, _⟩
      cases heq
    · rintro ⟨loaded, hloaded⟩
      cases hloaded

theorem typed_record_iff {fields : List (String × Json)} :
    (Json.record fields).Typed ↔ ∃ tag, typeTag? fields = some tag := by
  simp only [typeTag?_eq_some_iff]
  constructor
  · rintro ⟨_, tag, heq, htag⟩
    cases heq
    exact ⟨tag, htag⟩
  · rintro ⟨tag, htag⟩
    exact ⟨fields, tag, rfl, htag⟩

end Json

/-- The items of a list are nodes, well-formed or not, if all of them are typed. -/
theorem exists_map_node_iff {items : List Json} :
    (∃ loaded : List (Loaded Node), items.map Json.content = loaded.map .node) ↔
      ∀ item ∈ items, item.Typed := by
  simp only [Json.typed_iff]
  induction items with
  | nil => exact ⟨fun _ => nofun, fun _ => ⟨[], rfl⟩⟩
  | cons item items ih =>
    rw [List.forall_mem_cons, ← ih]
    constructor
    · rintro ⟨loaded, hloaded⟩
      cases loaded with
      | nil => cases hloaded
      | cons first rest =>
        rw [List.map_cons, List.map_cons, List.cons.injEq] at hloaded
        exact ⟨⟨first, hloaded.1⟩, rest, hloaded.2⟩
    · rintro ⟨⟨first, hfirst⟩, rest, hrest⟩
      exact ⟨first :: rest, by rw [List.map_cons, List.map_cons, hfirst, hrest]⟩

namespace Json

theorem content_list_eq_nothing_iff {items : List Json} :
    content (.list items) = .nothing ↔ ¬∀ item ∈ items, item.Typed := by
  rw [content_list, Content.ofItems, ← exists_map_node_iff]
  simp only [← Content.mapM_node?_eq_some_iff]
  split
  · rename_i loaded hloaded
    simp [hloaded]
  · rename_i hnone
    simp [hnone]

/-- **Nothing is loaded from a value that holds no nodes**, and something from any other. -/
theorem content_eq_nothing_iff {json : Json} : json.content = .nothing ↔ ¬json.HoldsNodes := by
  cases json with
  | list items =>
    rw [content_list_eq_nothing_iff]
    refine not_congr ⟨fun h => Or.inr ⟨items, rfl, h⟩, ?_⟩
    rintro (⟨_, _, heq, _⟩ | ⟨items', heq, h⟩)
    · cases heq
    · cases heq
      exact h
  | record fields =>
    have hrecord : (Json.record fields).HoldsNodes ↔ (Json.record fields).Typed := by
      refine ⟨?_, Or.inl⟩
      rintro (h | ⟨_, heq, _⟩)
      · exact h
      · cases heq
    rw [hrecord, typed_record_iff, content_record]
    cases typeTag? fields <;> simp
  | null | bool | natural | numeral | text =>
    refine iff_of_true rfl ?_
    rintro (⟨_, _, heq, _⟩ | ⟨_, heq, _⟩) <;> cases heq

end Json

/-! ## Entries that nothing is loaded from -/

/-- An entry that the loader has no use for: it is not reserved, it holds no nodes, and it neither names
nor marks the node. -/
structure Unused (key : String) (value : Json) : Prop where
  unreserved : key ∉ reservedKeys
  nothing : ¬value.HoldsNodes
  unnamed : ¬(key = "name" ∧ ∃ name, value = .text name)
  unmarked : ¬(key = "skip" ∧ ∃ skip, value = .bool skip)

theorem Unused.loadField {key : String} {value : Json} (h : Unused key value) (node : Node) :
    loadField node (key, value, value.content) = .ok node := by
  have hname : entryName? key value = none :=
    Option.eq_none_iff_forall_ne_some.2 fun name hname =>
      h.unnamed ⟨(entryName?_eq_some_iff.1 hname).1, name, (entryName?_eq_some_iff.1 hname).2⟩
  have hskip : entrySkip? key value = none :=
    Option.eq_none_iff_forall_ne_some.2 fun skip hskip =>
      h.unmarked ⟨(entrySkip?_eq_some_iff.1 hskip).1, skip, (entrySkip?_eq_some_iff.1 hskip).2⟩
  have hfield : entryField? (key, value, value.content) = .ok none := by
    rw [entryField?_of_isSlotEntry (isSlotEntry_iff.2 ⟨h.unreserved, hname, hskip⟩)]
    dsimp only
    rw [Json.content_eq_nothing_iff.2 h.nothing]
    rfl
  rw [loadField_eq, hfield]
  cases node
  simp [Except.map, Node.enter, hname, hskip]

/-! ## Records that load the same -/

/-- A value that has values in it. -/
def Json.isCompound : Json → Bool
  | .list _ | .record _ => true
  | _ => false

theorem Json.HoldsNodes.isCompound {json : Json} (h : json.HoldsNodes) : json.isCompound = true := by
  rcases h with ⟨fields, tag, rfl, -⟩ | ⟨items, rfl, -⟩
  · rfl
  · rfl

theorem entryName?_of_isCompound {key : String} {value : Json} (h : value.isCompound = true) :
    entryName? key value = none := by
  refine Option.eq_none_iff_forall_ne_some.2 fun name hname => ?_
  rw [(entryName?_eq_some_iff.1 hname).2] at h
  cases h

theorem entrySkip?_of_isCompound {key : String} {value : Json} (h : value.isCompound = true) :
    entrySkip? key value = none := by
  refine Option.eq_none_iff_forall_ne_some.2 fun skip hskip => ?_
  rw [(entrySkip?_eq_some_iff.1 hskip).2] at h
  cases h

/-- Two values under a key that say the same of the type or the range of a node: they are the same, or
neither of them is a scalar. -/
def SameScalar (found found' : Option Json) : Prop :=
  found = found' ∨
    ∃ value value', found = some value ∧ found' = some value' ∧ value.isCompound = true ∧
      value'.isCompound = true

namespace SameScalar

variable {fields fields' : List (String × Json)}

theorem eq_some_iff {found found' : Option Json} (h : SameScalar found found') {scalar : Json}
    (hscalar : scalar.isCompound = false) : found = some scalar ↔ found' = some scalar := by
  rcases h with rfl | ⟨value, value', rfl, rfl, hvalue, hvalue'⟩
  · rfl
  · have hne : ∀ json : Json, json.isCompound = true → some json ≠ some scalar := by
      rintro json hjson heq
      cases heq
      rw [hscalar] at hjson
      cases hjson
    exact iff_of_false (hne value hvalue) (hne value' hvalue')

theorem typeTag?_eq (h : SameScalar (fields.lookup "type") (fields'.lookup "type")) :
    typeTag? fields = typeTag? fields' := by
  apply Option.ext
  intro tag
  rw [typeTag?_eq_some_iff, typeTag?_eq_some_iff]
  exact h.eq_some_iff rfl

theorem loadSpan_eq (hstart : SameScalar (fields.lookup "start") (fields'.lookup "start"))
    (hstop : SameScalar (fields.lookup "end") (fields'.lookup "end")) (tag : String) :
    loadSpan tag fields = loadSpan tag fields' := by
  have hstart' : ∀ n,
      fields.lookup "start" = some (.natural n) ↔ fields'.lookup "start" = some (.natural n) :=
    fun n => hstart.eq_some_iff rfl
  have hstop' : ∀ n, fields.lookup "end" = some (.natural n) ↔ fields'.lookup "end" = some (.natural n) :=
    fun n => hstop.eq_some_iff rfl
  have hplaced : Unplaced fields ↔ Unplaced fields' :=
    and_congr (hstart.eq_some_iff rfl) (hstop.eq_some_iff rfl)
  rcases loadSpan_cases tag fields with hnull | ⟨start, stop, hnatural, hnatural', -⟩ | ⟨fault, hfault⟩
  · rw [loadSpan_of_unplaced hnull, loadSpan_of_unplaced (hplaced.1 hnull)]
  · rw [loadSpan_of_naturals hnatural hnatural',
      loadSpan_of_naturals ((hstart' start).1 hnatural) ((hstop' stop).1 hnatural')]
  · have hfault' : Misranged tag fields' fault := by
      cases hfault with
      | start hnull hnone =>
        exact .start (mt hplaced.2 hnull) fun n => mt (hstart' n).2 (hnone n)
      | stop hnatural hnone =>
        exact .stop ((hstart' _).1 hnatural) fun n => mt (hstop' n).2 (hnone n)
      | inverted hnatural hnatural' hlt =>
        exact .inverted ((hstart' _).1 hnatural) ((hstop' _).1 hnatural') hlt
    rw [hfault.loadSpan_eq, hfault'.loadSpan_eq]

end SameScalar

/-- **Two records are loaded the same** if they say the same of type and range, and their entries do the
same to every node. -/
theorem Json.content_record_congr {fields fields' : List (String × Json)}
    (hscalar : ∀ key ∈ reservedKeys, SameScalar (fields.lookup key) (fields'.lookup key))
    (hentries : ∀ node : Node,
      (fields.map fun (key, value) => (key, value, value.content)).foldlM loadField node =
        (fields'.map fun (key, value) => (key, value, value.content)).foldlM loadField node) :
    content (.record fields) = content (.record fields') := by
  have htype := (hscalar "type" (by simp [reservedKeys])).typeTag?_eq
  have hspan := (hscalar "start" (by simp [reservedKeys])).loadSpan_eq
    (hscalar "end" (by simp [reservedKeys]))
  rw [content_record, content_record, htype]
  cases typeTag? fields' with
  | none => rfl
  | some tag =>
    dsimp only
    unfold loadNode
    rw [hspan]
    exact congrArg (fun load => Content.node (loadSpan tag fields' >>= load))
      (funext fun span => hentries _)

/-! ## Values that differ in one place -/

/-- Two values that differ in one place, at any depth, where they have values that are related. -/
inductive DifferBy (R : Json → Json → Prop) : Json → Json → Prop
  | here {json json' : Json} (h : R json json') : DifferBy R json json'
  | entry (before after : List (String × Json)) (key : String) {value value' : Json}
      (h : DifferBy R value value') :
      DifferBy R (.record (before ++ (key, value) :: after)) (.record (before ++ (key, value') :: after))
  | item (before after : List Json) {item item' : Json} (h : DifferBy R item item') :
      DifferBy R (.list (before ++ item :: after)) (.list (before ++ item' :: after))

theorem lookup_append_cons_of_ne {fields more : List (String × Json)} {key key' : String} {value : Json}
    (h : key ≠ key') :
    (fields ++ (key', value) :: more).lookup key = (fields ++ more).lookup key := by
  have hne : (key == key') = false := beq_eq_false_iff_ne.2 h
  rw [List.lookup_append, List.lookup_append, List.lookup_cons, hne]

/-- Where a value stands under a key, the value found there is this value or an earlier one. -/
theorem sameScalar_append_cons {fields more : List (String × Json)} {key key' : String}
    {value value' : Json} (hvalue : value.isCompound = true) (hvalue' : value'.isCompound = true) :
    SameScalar ((fields ++ (key', value) :: more).lookup key)
      ((fields ++ (key', value') :: more).lookup key) := by
  by_cases hkey : key = key'
  · subst hkey
    rw [List.lookup_append, List.lookup_append, List.lookup_cons_self, List.lookup_cons_self]
    cases fields.lookup key with
    | none => exact Or.inr ⟨value, value', rfl, rfl, hvalue, hvalue'⟩
    | some found => exact Or.inl rfl
  · rw [lookup_append_cons_of_ne hkey, lookup_append_cons_of_ne hkey]
    exact Or.inl rfl

/-- An entry with values in its value names and marks nothing, so only what it holds matters. -/
theorem loadField_congr {key : String} {value value' : Json} (hvalue : value.isCompound = true)
    (hvalue' : value'.isCompound = true) (content : Content) (node : Node) :
    loadField node (key, value, content) = loadField node (key, value', content) := by
  rw [loadField_eq, loadField_eq]
  unfold entryField? Node.enter isSlotEntry
  dsimp only
  rw [entryName?_of_isCompound hvalue, entryName?_of_isCompound hvalue', entrySkip?_of_isCompound hvalue,
    entrySkip?_of_isCompound hvalue']

/-- **Values that differ in one place contribute the same** if what they have there does. -/
theorem DifferBy.content_eq {R : Json → Json → Prop}
    (hR : ∀ value value', R value value' →
      value.isCompound = true ∧ value'.isCompound = true ∧ value.content = value'.content)
    {json json' : Json} (h : DifferBy R json json') :
    json.isCompound = true ∧ json'.isCompound = true ∧ json.content = json'.content := by
  induction h with
  | here h => exact hR _ _ h
  | entry before after key _ ih =>
    obtain ⟨hvalue, hvalue', hcontent⟩ := ih
    refine ⟨rfl, rfl, Json.content_record_congr (fun key' _ => sameScalar_append_cons hvalue hvalue') ?_⟩
    intro node
    simp only [List.map_append, List.map_cons, List.foldlM_append, List.foldlM_cons, hcontent,
      loadField_congr hvalue hvalue']
  | item before after _ ih =>
    refine ⟨rfl, rfl, ?_⟩
    rw [Json.content_list, Json.content_list]
    simp only [List.map_append, List.map_cons, ih.2.2]

theorem DifferBy.ofJson_eq {R : Json → Json → Prop}
    (hR : ∀ value value', R value value' →
      value.isCompound = true ∧ value'.isCompound = true ∧ value.content = value'.content)
    {json json' : Json} (h : DifferBy R json json') : Node.ofJson json = Node.ofJson json' := by
  unfold Node.ofJson
  rw [(h.content_eq hR).2.2]

/-! ## Entries that are added or changed -/

/-- A record gets an entry that is not used, at any place. -/
theorem Unused.content_eq {key : String} {value : Json} (h : Unused key value)
    (before after : List (String × Json)) :
    Json.content (.record (before ++ (key, value) :: after)) = Json.content (.record (before ++ after)) := by
  refine Json.content_record_congr (fun key' hkey' => Or.inl (lookup_append_cons_of_ne ?_)) ?_
  · rintro rfl
    exact h.unreserved hkey'
  · intro node
    simp only [List.map_append, List.map_cons, List.foldlM_append, List.foldlM_cons, h.loadField]
    rfl

/-- Two records of which one has an entry that the other lacks, or has with another value, where the entry
is not used. -/
inductive Varies : Json → Json → Prop
  | insert (before after : List (String × Json)) {key : String} {value : Json} (h : Unused key value) :
      Varies (.record (before ++ after)) (.record (before ++ (key, value) :: after))
  | replace (before after : List (String × Json)) {key : String} {value value' : Json}
      (h : Unused key value) (h' : Unused key value') :
      Varies (.record (before ++ (key, value) :: after)) (.record (before ++ (key, value') :: after))

/-- **What is not used has no influence.** An entry that is not used may be added to any record in a value,
at any place, or get another value that is not used: the same tree is loaded, or the same fault reported. -/
theorem ofJson_ignores {json json' : Json} (h : DifferBy Varies json json') :
    Node.ofJson json = Node.ofJson json' := by
  refine h.ofJson_eq ?_
  intro record record' hvaries
  cases hvaries with
  | insert before after hunused => exact ⟨rfl, rfl, (hunused.content_eq before after).symm⟩
  | replace before after hunused hunused' =>
    exact ⟨rfl, rfl, (hunused.content_eq before after).trans (hunused'.content_eq before after).symm⟩

/-- A document with an item in a list of nodes to which entries can be added. -/
def openDocument (entries : List (String × Json)) : Json :=
  .record [("type", .text "Fragment"), ("start", .natural 0), ("end", .natural 9),
    ("children", .list [
      .record ([("type", .text "Text")] ++ entries ++ [("start", .natural 3), ("end", .natural 1)]),
      .record [("type", .text "Text")]])]

/-- A list that holds a node with a range that is inverted, and a number. -/
def mixedList : Json :=
  .list [.record [("type", .text "Text"), ("start", .natural 7), ("end", .natural 5)], .natural 1]

theorem ofJson_ignores_openDocument :
    Node.ofJson (openDocument []) = .error (.inverted "Text" 3 1) ∧
      Node.ofJson (openDocument [("skip", mixedList)]) = .error (.inverted "Text" 3 1) ∧
      Node.ofJson (openDocument [("skip", .text "no")]) = .error (.inverted "Text" 3 1) := by
  have hmixed : Unused "skip" mixedList :=
    ⟨by decide, Json.content_eq_nothing_iff.1 rfl, by simp, by simp [mixedList]⟩
  have htext : Unused "skip" (.text "no") :=
    ⟨by decide, Json.content_eq_nothing_iff.1 rfl, by simp, by simp⟩
  -- the way to the item: the last entry of the document, and the first item in it
  have hdiffer : ∀ {item item' : Json}, Varies item item' →
      DifferBy Varies
        (.record [("type", .text "Fragment"), ("start", .natural 0), ("end", .natural 9),
          ("children", .list [item, .record [("type", .text "Text")]])])
        (.record [("type", .text "Fragment"), ("start", .natural 0), ("end", .natural 9),
          ("children", .list [item', .record [("type", .text "Text")]])]) := fun hvaries =>
    .entry [("type", .text "Fragment"), ("start", .natural 0), ("end", .natural 9)] [] "children"
      (.item [] _ (.here hvaries))
  have hinsert := ofJson_ignores (hdiffer (.insert [("type", .text "Text")]
    [("start", .natural 3), ("end", .natural 1)] hmixed))
  have hreplace := ofJson_ignores (hdiffer (.replace [("type", .text "Text")]
    [("start", .natural 3), ("end", .natural 1)] hmixed htext))
  have hplain : Node.ofJson (openDocument []) = .error (.inverted "Text" 3 1) := rfl
  exact ⟨hplain, hinsert.symm.trans hplain, hreplace.symm.trans (hinsert.symm.trans hplain)⟩

end TemplateCode
