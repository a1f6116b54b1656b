import TemplateCode.Proofs.Loading
import TemplateCode.Proofs.Reading
import Mathlib.Data.List.Nodup
import Mathlib.Tactic.MkIffOfInductiveProp

/-!
# Trees that can be loaded

Not every tree comes from a document: a document has each key once in a record, ranges that fit 64 bits
and are not inverted, and no way to spell a kind or a slot as anything but what its word stands for.

* `Node.Canonical`: the trees that are spelled as documents spell them.
* `Json.forall_of_field?`: every node that is loaded is the node of a record.
* `Node.toJson` writes a tree as a JSON value.
* `ofJson_canonical`: loading gives canonical trees, and every canonical tree is loaded from its value.
-/

namespace TemplateCode

/-! ## Words -/

theorem Kind.tag_ofTag (tag : String) : (Kind.ofTag tag).tag = tag := by
  unfold ofTag
  cases hfound : reserved.find? fun kind => kind.tag == tag with
  | none => rfl
  | some kind => simpa using List.find?_some hfound

theorem Slot.key_ofKey (key : String) : (Slot.ofKey key).key = key := by
  unfold ofKey
  cases hfound : reserved.find? fun slot => slot.key == key with
  | none => rfl
  | some slot => simpa using List.find?_some hfound

/-! ## Canonical trees -/

namespace Node

/-- A node as documents spell it, apart from what is in its fields. -/
@[mk_iff]
structure CanonicalAt (node : Node) : Prop where
  ordered : node.span.start ≤ node.span.stop
  bounded : node.span.stop < UInt64.size
  kind : Kind.ofTag node.kind.tag = node.kind
  slot : ∀ field ∈ node.fields, Slot.ofKey field.slot.key = field.slot
  distinct : (node.fields.map fun field => field.slot.key).Nodup
  unreserved : ∀ field ∈ node.fields, field.slot.key ∉ reservedKeys
  /-- The name takes the place of a slot with that key. -/
  name : (∃ field ∈ node.fields, field.slot.key = "name") → node.name = none
  /-- So does the mark. -/
  skip : (∃ field ∈ node.fields, field.slot.key = "skip") → node.skip = false

instance (node : Node) : Decidable node.CanonicalAt :=
  decidable_of_iff _ (canonicalAt_iff node).symm

/-- A tree all of whose nodes are spelled as documents spell them. -/
def Canonical (root : Node) : Prop :=
  ∀ node ∈ root.preorder, node.CanonicalAt

instance (root : Node) : Decidable root.Canonical :=
  inferInstanceAs (Decidable (∀ node ∈ root.preorder, node.CanonicalAt))

theorem preorder_eq (root : Node) :
    root.preorder = root :: root.fields.flatMap fun field => field.nodes.flatMap preorder := by
  unfold preorder
  rw [fold_eq, List.flatMap_map]
  simp [List.flatMap_def, List.flatten_flatten, Function.comp_def]

theorem mem_preorder {root node : Node} :
    node ∈ root.preorder ↔
      node = root ∨ ∃ field ∈ root.fields, ∃ below ∈ field.nodes, node ∈ below.preorder := by
  rw [preorder_eq]
  simp only [List.mem_cons, List.mem_flatMap]

theorem canonical_iff {root : Node} :
    root.Canonical ↔
      root.CanonicalAt ∧ ∀ field ∈ root.fields, ∀ below ∈ field.nodes, below.Canonical := by
  constructor
  · intro h
    refine ⟨h root (mem_preorder.2 (Or.inl rfl)), ?_⟩
    intro field hfield below hbelow node hnode
    exact h node (mem_preorder.2 (Or.inr ⟨field, hfield, below, hbelow, hnode⟩))
  · rintro ⟨hroot, hbelow⟩ node hnode
    rcases mem_preorder.1 hnode with rfl | ⟨field, hfield, below, hmem, hnode⟩
    · exact hroot
    · exact hbelow field hfield below hmem node hnode

end Node

/-! ## What is loaded is canonical -/

theorem loadBound_lt {tag : String} {fields : List (String × Json)} {bound : Bound} {offset : Nat}
    (h : loadBound tag fields bound = .ok offset) : offset < UInt64.size := by
  unfold loadBound at h
  split at h
  · cases h
    exact UInt64.toNat_lt _
  · cases h

theorem loadSpan_canonical {tag : String} {fields : List (String × Json)} {span : Span}
    (h : loadSpan tag fields = .ok span) : span.start ≤ span.stop ∧ span.stop < UInt64.size := by
  unfold loadSpan at h
  split at h
  · cases h
    decide
  · cases hstart : loadBound tag fields .start with
    | error fault => rw [hstart] at h; cases h
    | ok start =>
      cases hstop : loadBound tag fields .stop with
      | error fault => rw [hstart, hstop] at h; cases h
      | ok stop =>
        rw [hstart, hstop] at h
        dsimp only [bind, Except.bind] at h
        split at h
        · cases h
        · cases h
          exact ⟨by dsimp only; omega, loadBound_lt hstop⟩

/-- The entries of a record with the fields that they add. -/
abbrev Adds (entries : List (String × Json × Content)) (found : List (Option Field)) : Prop :=
  List.Forall₂ (fun entry field => entryField? entry = .ok field) entries found

namespace Adds

variable {entries : List (String × Json × Content)} {found : List (Option Field)} {field : Field}

/-- A field that has been added comes from an entry under its key that was looked at for nodes. -/
theorem exists_entry (h : Adds entries found) (hfield : field ∈ found.reduceOption) :
    ∃ entry ∈ entries, isSlotEntry entry.1 entry.2.1 = true ∧ field.slot = .ofKey entry.1 ∧
      entry.2.2.field? field.slot = .ok (some field) := by
  rw [List.reduceOption_mem_iff] at hfield
  induction h with
  | nil => cases hfield
  | @cons entry found? _ _ hentry _ ih =>
    rcases List.mem_cons.1 hfield with rfl | hrest
    · obtain ⟨hslot, hcontent⟩ := entryField?_eq_ok_some_iff.1 hentry
      have hkey := Content.slot_of_field? hcontent
      exact ⟨entry, List.mem_cons_self, hslot, hkey, hkey ▸ hcontent⟩
    · obtain ⟨entry', hmem, h'⟩ := ih hrest
      exact ⟨entry', List.mem_cons_of_mem _ hmem, h'⟩

theorem keys_sublist (h : Adds entries found) :
    (found.reduceOption.map fun field => field.slot.key).Sublist (entries.map Prod.fst) := by
  induction h with
  | nil => exact .slnil
  | @cons entry found? _ _ hentry _ ih =>
    cases found? with
    | none => exact ih.cons _
    | some field =>
      have hkey : field.slot.key = entry.1 := by
        rw [Content.slot_of_field? (entryField?_eq_ok_some_iff.1 hentry).2, Slot.key_ofKey]
      rw [List.reduceOption_cons_of_some, List.map_cons, List.map_cons, hkey]
      exact ih.cons_cons _

end Adds

theorem foldl_eq_of_forall {α β : Type} {step : β → α → β} {items : List α}
    (h : ∀ a ∈ items, ∀ b, step b a = b) (b : β) : items.foldl step b = b := by
  induction items with
  | nil => rfl
  | cons item items ih =>
    rw [List.foldl_cons, h item List.mem_cons_self]
    exact ih fun a ha => h a (List.mem_cons_of_mem _ ha)

/-- A record with each key once is loaded as a node that is spelled as documents spell it. -/
theorem loadNode_canonicalAt {tag : String} {fields : List (String × Json)}
    {entries : List (String × Json × Content)} {node : Node} (hkeys : (entries.map Prod.fst).Nodup)
    (h : loadNode tag fields entries = .ok node) : node.CanonicalAt := by
  obtain ⟨span, found, hspan, hfound, rfl⟩ := loadNode_eq_ok_iff.1 h
  obtain ⟨hordered, hbounded⟩ := loadSpan_canonical hspan
  -- An entry that names or marks the node is the only one with its key, so its value holds no nodes.
  have hunique : ∀ field ∈ found.reduceOption, ∀ entry ∈ entries, entry.1 = field.slot.key →
      isSlotEntry entry.1 entry.2.1 = true := by
    intro field hfield entry hentry hkey
    obtain ⟨other, hother, hslot, hfield, -⟩ := Adds.exists_entry hfound hfield
    rw [hfield, Slot.key_ofKey] at hkey
    exact List.inj_on_of_nodup_map hkeys hentry hother hkey ▸ hslot
  refine ⟨hordered, hbounded, ?_, ?_, ?_, ?_, ?_, ?_⟩
  · exact congrArg Kind.ofTag (Kind.tag_ofTag tag)
  · intro field hfield
    obtain ⟨entry, -, -, hslot, -⟩ := Adds.exists_entry hfound hfield
    rw [hslot, Slot.key_ofKey]
  · exact hkeys.sublist (Adds.keys_sublist hfound)
  · intro field hfield
    obtain ⟨entry, -, hentry, hslot, -⟩ := Adds.exists_entry hfound hfield
    rw [hslot, Slot.key_ofKey]
    exact (isSlotEntry_iff.1 hentry).1
  · rintro ⟨field, hfield, hkey⟩
    refine foldl_eq_of_forall (fun entry hentry name => ?_) none
    rw [entryName?_eq_none fun h => hunique field hfield entry hentry (h.trans hkey.symm), Option.none_or]
  · rintro ⟨field, hfield, hkey⟩
    refine foldl_eq_of_forall (fun entry hentry skip => ?_) false
    rw [entrySkip?_eq_none fun h => hunique field hfield entry hentry (h.trans hkey.symm),
      Option.getD_none]

namespace Json

/-- The values in a list or in a record. -/
def parts : Json → List Json
  | .list items => items
  | .record fields => fields.map Prod.snd
  | _ => []

/-- A property that passes from the values in a value to the value holds of every value. -/
theorem induction {P : Json → Prop} (step : ∀ json : Json, (∀ part ∈ json.parts, P part) → P json) :
    ∀ json, P json := by
  refine @Json.rec P (fun items => ∀ item ∈ items, P item) (fun fields => ∀ field ∈ fields, P field.2)
    (fun field => P field.2) ?_ ?_ ?_ ?_ ?_ ?_ ?_ ?_ ?_ ?_ ?_ ?_
  · exact step _ nofun
  · exact fun _ => step _ nofun
  · exact fun _ => step _ nofun
  · exact fun _ => step _ nofun
  · exact fun _ => step _ nofun
  · exact fun items ih => step _ ih
  · exact fun fields ih => step _ (List.forall_mem_map.2 ih)
  · exact nofun
  · exact fun item items ihItem ihItems => List.forall_mem_cons.2 ⟨ihItem, ihItems⟩
  · exact nofun
  · exact fun field fields ihField ihFields => List.forall_mem_cons.2 ⟨ihField, ihFields⟩
  · exact fun _ _ ih => ih

/-- **Every node that a value contributes is the node of a record in the value**: what holds of the
nodes of records holds of all nodes that are loaded. -/
theorem forall_of_field? {D : Json → Prop} {P : Node → Prop}
    (hparts : ∀ json, D json → ∀ part ∈ json.parts, D part)
    (hnode : ∀ tag fields node, D (.record fields) →
      loadNode tag fields (fields.map fun (key, value) => (key, value, value.content)) = .ok node →
      P node) (json : Json) (hjson : D json) {slot : Slot} {field : Field}
    (hfield : json.content.field? slot = .ok (some field)) :
    ∀ below ∈ field.nodes, ∀ node ∈ below.preorder, P node := by
  induction json using Json.induction generalizing slot field with
  | step json ih =>
    have hbelow := hparts json hjson
    cases json with
    | null | bool | natural | numeral | text => cases hfield
    | list items =>
      rw [content_list] at hfield
      rcases Content.field?_eq_ok_some_iff.1 hfield with ⟨node, hone, -⟩ | ⟨nodes, hnodes, rfl⟩
      · unfold Content.ofItems at hone
        split at hone <;> cases hone
      · -- The items are the nodes of the sequence, each by itself.
        intro below hmem
        have hitem : Content.node (.ok below) ∈ items.map content := by
          rw [Content.ofItems_eq_ok_iff.1 hnodes]
          exact List.mem_map_of_mem hmem
        obtain ⟨item, hmem, hcontent⟩ := List.mem_map.1 hitem
        have hone : item.content.field? slot = .ok (some (.one slot below)) :=
          Content.field?_eq_ok_some_iff.2 (Or.inl ⟨below, hcontent, rfl⟩)
        exact ih item hmem (hbelow item hmem) hone below List.mem_cons_self
    | record fields =>
      rw [content_record] at hfield
      rcases Content.field?_eq_ok_some_iff.1 hfield with ⟨root, hroot, rfl⟩ | ⟨nodes, hnodes, -⟩
      · split at hroot
        · injection hroot with hload
          intro below hmem node hpreorder
          rw [Field.nodes, List.mem_singleton] at hmem
          subst hmem
          rcases Node.mem_preorder.1 hpreorder with rfl | ⟨field, hfield, inner, hinner, hdeep⟩
          · exact hnode _ fields node hjson hload
          · obtain ⟨span, found, -, hfound, rfl⟩ := loadNode_eq_ok_iff.1 hload
            obtain ⟨entry, hentry, -, -, hcontent⟩ := Adds.exists_entry hfound hfield
            obtain ⟨entry', hentry', rfl⟩ := List.mem_map.1 hentry
            have hpart : entry'.2 ∈ (Json.record fields).parts := List.mem_map_of_mem hentry'
            exact ih entry'.2 hpart (hbelow _ hpart) hcontent inner hinner node hdeep
        · cases hroot
      · split at hnodes <;> cases hnodes

theorem DistinctKeys.parts {json : Json} (h : json.DistinctKeys) :
    ∀ part ∈ json.parts, part.DistinctKeys := by
  cases h with
  | list h => exact h
  | record _ h => exact List.forall_mem_map.2 h
  | _ => exact nofun

/-- Whatever nodes a value contributes are canonical. -/
theorem canonical_of_field? {json : Json} (h : json.DistinctKeys) {slot : Slot} {field : Field}
    (hfield : json.content.field? slot = .ok (some field)) : ∀ below ∈ field.nodes, below.Canonical := by
  refine forall_of_field? (fun _ => DistinctKeys.parts) (fun tag fields node hrecord hload => ?_) json h
    hfield
  cases hrecord with
  | record hkeys _ =>
    refine loadNode_canonicalAt ?_ hload
    rwa [List.map_map]

end Json

theorem Node.ofJson_eq_ok_iff {json : Json} {node : Node} :
    Node.ofJson json = .ok node ↔ json.content = .node (.ok node) := by
  unfold ofJson
  cases json.content <;> simp [throw, throwThe, MonadExceptOf.throw]

theorem Node.ofText_eq_ok_iff {text : String} {node : Node} :
    Node.ofText text = .ok node ↔ ∃ json, Json.ofText text = .ok json ∧ Node.ofJson json = .ok node := by
  unfold ofText
  cases Json.ofText text with
  | error fault => simp [Except.mapError, bind, Except.bind]
  | ok json => simp [Except.mapError, bind, Except.bind]

/-- A value that is a tree contributes that tree. -/
theorem Node.field?_of_ofJson {json : Json} {root : Node} (h : Node.ofJson json = .ok root)
    (slot : Slot) : json.content.field? slot = .ok (some (.one slot root)) :=
  Content.field?_eq_ok_some_iff.2 (Or.inl ⟨root, ofJson_eq_ok_iff.1 h, rfl⟩)

theorem Node.canonical_of_ofJson {json : Json} {root : Node} (h : json.DistinctKeys)
    (hroot : Node.ofJson json = .ok root) : root.Canonical :=
  Json.canonical_of_field? h (field?_of_ofJson hroot .children) root List.mem_cons_self

/-! ## Writing a tree -/

namespace Node

/-- The entries of the record of a node that are not slots. -/
def header (node : Node) : List (String × Json) :=
  [("type", .text node.kind.tag), ("start", .natural (.ofNat node.span.start)),
    ("end", .natural (.ofNat node.span.stop))] ++
    (node.name.map fun name => ("name", .text name)).toList ++
    if node.skip then [("skip", .bool true)] else []

mutual

/-- A tree as a JSON value. A field of one node is written as a record, any other as a list. -/
def toJson : Node → Json
  | ⟨kind, span, name, skip, fields⟩ =>
    .record (header ⟨kind, span, name, skip, fields⟩ ++ fieldsToJson fields)

def fieldsToJson : List Field → List (String × Json)
  | [] => []
  | .one slot node :: fields => (slot.key, toJson node) :: fieldsToJson fields
  | .many slot nodes :: fields => (slot.key, .list (nodesToJson nodes)) :: fieldsToJson fields

def nodesToJson : List Node → List Json
  | [] => []
  | node :: nodes => toJson node :: nodesToJson nodes

end

end Node

/-- What a field holds, as a JSON value. -/
def Field.toJson : Field → Json
  | one _ node => node.toJson
  | many _ nodes => .list (nodes.map Node.toJson)

namespace Node

theorem nodesToJson_eq (nodes : List Node) : nodesToJson nodes = nodes.map toJson := by
  induction nodes with
  | nil => rfl
  | cons node nodes ih => rw [nodesToJson, ih, List.map_cons]

theorem fieldsToJson_eq (fields : List Field) :
    fieldsToJson fields = fields.map fun field => (field.slot.key, field.toJson) := by
  induction fields with
  | nil => rfl
  | cons field fields ih =>
    cases field with
    | one slot node => rw [fieldsToJson, ih]; rfl
    | many slot nodes => rw [fieldsToJson, ih, nodesToJson_eq]; rfl

/-- The entries of the record of a node, in the order in which they are written. -/
def recordEntries (node : Node) : List (String × Json) :=
  node.header ++ node.fields.map fun field => (field.slot.key, field.toJson)

theorem toJson_eq (node : Node) : node.toJson = .record node.recordEntries := by
  cases node
  rw [toJson, fieldsToJson_eq]
  rfl

end Node

/-- A field is written as a record or as a list, which neither names nor marks a node. -/
theorem isSlotEntry_toJson {field : Field} (h : field.slot.key ∉ reservedKeys) :
    isSlotEntry field.slot.key field.toJson = true := by
  cases field with
  | one slot node =>
    rw [Field.toJson, Node.toJson_eq]
    exact isSlotEntry_of_ne h nofun nofun
  | many slot nodes => exact isSlotEntry_of_ne h nofun nofun

namespace Node

theorem mem_header {node : Node} {entry : String × Json} (h : entry ∈ node.header) :
    entry = ("type", .text node.kind.tag) ∨ entry = ("start", .natural (.ofNat node.span.start)) ∨
      entry = ("end", .natural (.ofNat node.span.stop)) ∨
      (∃ name, node.name = some name ∧ entry = ("name", .text name)) ∨
      (node.skip = true ∧ entry = ("skip", .bool true)) := by
  simp only [header, List.mem_append, List.mem_cons, List.not_mem_nil, or_false, Option.mem_toList,
    Option.map_eq_some_iff] at h
  rcases h with ((htype | hstart | hend) | ⟨name, hname, hentry⟩) | hskip
  · exact Or.inl htype
  · exact Or.inr (Or.inl hstart)
  · exact Or.inr (Or.inr (Or.inl hend))
  · exact Or.inr (Or.inr (Or.inr (Or.inl ⟨name, hname, hentry.symm⟩)))
  · split at hskip
    · rename_i hmarked
      exact Or.inr (Or.inr (Or.inr (Or.inr ⟨hmarked, List.mem_singleton.1 hskip⟩)))
    · cases hskip

theorem isSlotEntry_header {node : Node} {entry : String × Json} (h : entry ∈ node.header) :
    isSlotEntry entry.1 entry.2 = false := by
  rcases mem_header h with rfl | rfl | rfl | ⟨name, -, rfl⟩ | ⟨-, rfl⟩ <;> rfl

/-- The range is written with numerals, so it is read back. -/
theorem loadSpan_recordEntries {node : Node} (h : node.CanonicalAt) (tag : String) :
    loadSpan tag node.recordEntries = .ok node.span := by
  have hstart : (UInt64.ofNat node.span.start).toNat = node.span.start :=
    UInt64.toNat_ofNat_of_lt' (Nat.lt_of_le_of_lt h.ordered h.bounded)
  have hstop : (UInt64.ofNat node.span.stop).toNat = node.span.stop :=
    UInt64.toNat_ofNat_of_lt' h.bounded
  have hlookup : node.recordEntries.lookup "start" = some (.natural (.ofNat node.span.start)) ∧
      node.recordEntries.lookup "end" = some (.natural (.ofNat node.span.stop)) := ⟨rfl, rfl⟩
  have hordered := Nat.not_lt.2 h.ordered
  simp [loadSpan, loadBound, Bound.key, hlookup, hstart, hstop, hordered, bind, Except.bind, pure,
    Except.pure]

theorem name_recordEntries {node : Node} (h : node.CanonicalAt) :
    node.recordEntries.foldl (fun name entry => (entryName? entry.1 entry.2).or name) none = node.name := by
  rw [recordEntries, List.foldl_append, List.foldl_map, foldl_eq_of_forall]
  · cases node with
    | mk kind span name skip fields => cases name <;> cases skip <;> rfl
  · intro field hfield name
    rw [entryName?_eq_none fun _ => isSlotEntry_toJson (h.unreserved field hfield), Option.none_or]

theorem skip_recordEntries {node : Node} (h : node.CanonicalAt) :
    node.recordEntries.foldl (fun skip entry => (entrySkip? entry.1 entry.2).getD skip) false = node.skip := by
  rw [recordEntries, List.foldl_append, List.foldl_map, foldl_eq_of_forall]
  · cases node with
    | mk kind span name skip fields => cases name <;> cases skip <;> rfl
  · intro field hfield skip
    rw [entrySkip?_eq_none fun _ => isSlotEntry_toJson (h.unreserved field hfield), Option.getD_none]

end Node

theorem Field.field?_toJson {field : Field}
    (h : ∀ below ∈ field.nodes, below.toJson.content = .node (.ok below)) :
    field.toJson.content.field? field.slot = .ok (some field) := by
  cases field with
  | one slot node =>
    exact Content.field?_eq_ok_some_iff.2 (Or.inl ⟨node, h node List.mem_cons_self, rfl⟩)
  | many slot nodes =>
    refine Content.field?_eq_ok_some_iff.2 (Or.inr ⟨nodes, ?_, rfl⟩)
    rw [Field.toJson, Json.content_list, Content.ofItems_eq_ok_iff, List.map_map]
    exact List.map_congr_left h

namespace Node

theorem adds_recordEntries {node : Node} (hnode : node.CanonicalAt)
    (h : ∀ field ∈ node.fields, ∀ below ∈ field.nodes, below.toJson.content = .node (.ok below)) :
    Adds (node.recordEntries.map fun (key, value) => (key, value, value.content))
      (node.header.map (fun _ => none) ++ node.fields.map some) := by
  rw [recordEntries, List.map_append, List.map_map]
  refine List.rel_append ?_ ?_
  · rw [List.forall₂_map_left_iff, List.forall₂_map_right_iff, List.forall₂_same]
    exact fun entry hentry => entryField?_of_not_isSlotEntry (isSlotEntry_header hentry)
  · rw [List.forall₂_map_left_iff, List.forall₂_map_right_iff, List.forall₂_same]
    intro field hfield
    refine entryField?_eq_ok_some_iff.2 ⟨isSlotEntry_toJson (hnode.unreserved field hfield), ?_⟩
    dsimp only [Function.comp]
    rw [hnode.slot field hfield]
    exact Field.field?_toJson (h field hfield)

/-- **Nothing of a canonical tree is lost**: its value is loaded as the tree. -/
theorem content_toJson (root : Node) : root.Canonical → root.toJson.content = .node (.ok root) := by
  induction root using Node.induction with
  | step node ih =>
    intro h
    obtain ⟨hnode, hbelow⟩ := canonical_iff.1 h
    have htag : typeTag? node.recordEntries = some node.kind.tag := rfl
    have hadds := adds_recordEntries hnode fun field hfield below hmem =>
      ih field hfield below hmem (hbelow field hfield below hmem)
    rw [toJson_eq, Json.content_record, htag]
    refine congrArg Content.node (loadNode_eq_ok_iff.2 ⟨_, _, loadSpan_recordEntries hnode _, hadds, ?_⟩)
    have hname := name_recordEntries hnode
    have hskip := skip_recordEntries hnode
    have hkind := hnode.kind
    cases node with
    | mk kind span name skip fields =>
      rw [enterAll, Node.mk.injEq]
      refine ⟨hkind.symm, rfl, ?_, ?_, ?_⟩
      · rw [List.foldl_map]
        exact hname.symm
      · rw [List.foldl_map]
        exact hskip.symm
      · simp [List.reduceOption]

theorem ofJson_toJson {root : Node} (h : root.Canonical) : ofJson root.toJson = .ok root :=
  ofJson_eq_ok_iff.2 (content_toJson root h)

/-! ## Keys of a written tree -/

theorem nodup_recordEntries {node : Node} (h : node.CanonicalAt) : (node.recordEntries.map Prod.fst).Nodup := by
  rw [recordEntries, List.map_append, List.map_map, List.nodup_append]
  refine ⟨?_, h.distinct, ?_⟩
  · cases node with
    | mk kind span name skip fields => cases name <;> cases skip <;> simp [header]
  · intro key hheader other hslot heq
    subst heq
    obtain ⟨entry, hentry, rfl⟩ := List.mem_map.1 hheader
    obtain ⟨field, hfield, hkey⟩ := List.mem_map.1 hslot
    have hfree := h.unreserved field hfield
    dsimp only [Function.comp] at hkey
    rw [hkey] at hfree
    rcases mem_header hentry with rfl | rfl | rfl | ⟨name, hname, rfl⟩ | ⟨hskip, rfl⟩
    · exact hfree (by simp [reservedKeys])
    · exact hfree (by simp [reservedKeys])
    · exact hfree (by simp [reservedKeys])
    · rw [h.name ⟨field, hfield, hkey⟩] at hname
      cases hname
    · rw [h.skip ⟨field, hfield, hkey⟩] at hskip
      cases hskip

theorem distinctKeys_header {node : Node} {entry : String × Json} (h : entry ∈ node.header) :
    entry.2.DistinctKeys := by
  rcases mem_header h with rfl | rfl | rfl | ⟨name, -, rfl⟩ | ⟨-, rfl⟩ <;> constructor

theorem distinctKeys_toJson (root : Node) : root.Canonical → root.toJson.DistinctKeys := by
  induction root using Node.induction with
  | step node ih =>
    intro h
    obtain ⟨hnode, hbelow⟩ := canonical_iff.1 h
    rw [toJson_eq]
    refine .record (nodup_recordEntries hnode) fun entry hentry => ?_
    rcases List.mem_append.1 hentry with hheader | hslot
    · exact distinctKeys_header hheader
    · obtain ⟨field, hfield, rfl⟩ := List.mem_map.1 hslot
      have hnodes : ∀ below ∈ field.nodes, below.toJson.DistinctKeys := fun below hmem =>
        ih field hfield below hmem (hbelow field hfield below hmem)
      cases field with
      | one slot node => exact hnodes node List.mem_cons_self
      | many slot nodes => exact .list (List.forall_mem_map.2 hnodes)

end Node

/-- **Loading gives exactly the canonical trees.** A value whose records have each key once is loaded as
a canonical tree, if it is loaded at all; every canonical tree is written as such a value and loaded from
it unchanged; and every tree that is loaded from a text is canonical. -/
theorem ofJson_canonical :
    (∀ (json : Json) (root : Node), json.DistinctKeys → Node.ofJson json = .ok root → root.Canonical) ∧
      (∀ root : Node, root.Canonical →
        root.toJson.DistinctKeys ∧ Node.ofJson root.toJson = .ok root) ∧
      ∀ (text : String) (root : Node), Node.ofText text = .ok root → root.Canonical := by
  refine ⟨fun _ _ => Node.canonical_of_ofJson, fun root h => ?_, fun text root h => ?_⟩
  · exact ⟨Node.distinctKeys_toJson root h, Node.ofJson_toJson h⟩
  · obtain ⟨json, hread, hload⟩ := Node.ofText_eq_ok_iff.1 h
    exact Node.canonical_of_ofJson (Json.distinctKeys_of_ofText hread) hload

/-- A document with its entries out of order, a node under `name` and a number under `skip`. -/
def looseText : String :=
  "\x7b\"name\":\x7b\"end\":9,\"type\":\"Fragment\",\"start\":4,\"name\":\"a\",\"children\":[]\x7d," ++
    "\"skip\":0,\"type\":\"EachBlock\",\"start\":null,\"end\":null,\"type\":\"Lone\"\x7d"

def looseRoot : Node :=
  { kind := .ofTag "Lone"
    fields := [.one (.ofKey "name")
      { kind := .ofTag "Fragment", span := ⟨4, 9⟩, name := some "a", fields := [.many .children []] }] }

theorem ofJson_canonical_looseText :
    Node.ofText looseText = .ok looseRoot ∧ looseRoot.Canonical ∧ looseRoot.toJson.DistinctKeys ∧
      Node.ofJson looseRoot.toJson = .ok looseRoot := by
  have hread : Node.ofText looseText = .ok looseRoot := by
    have hloaded : (Node.ofText looseText).toOption = some looseRoot := by decide +kernel
    cases hresult : Node.ofText looseText with
    | error fault => rw [hresult] at hloaded; cases hloaded
    | ok root => rw [hresult] at hloaded; cases hloaded; rfl
  have hroot := ofJson_canonical.2.2 looseText looseRoot hread
  obtain ⟨hkeys, hload⟩ := ofJson_canonical.2.1 looseRoot hroot
  exact ⟨hread, ofJson_canonical.1 _ _ hkeys hload, hkeys, hload⟩

end TemplateCode
