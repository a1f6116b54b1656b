import TemplateCode.Json.Reader

/-!
# What is read has each key once

A reader that goes through a record meets keys that it has met before. It keeps the place of the first
and the value of the last, so that the record has each key once.

* `Json.DistinctKeys`: values whose records have each key once.
* `Reader.Yields`: what holds of every result of a reader.
* `Json.distinctKeys_of_ofText`: every value that is read is one of those.
-/

namespace TemplateCode.Json

/-- A value whose records, at any depth, have each key once. -/
inductive DistinctKeys : Json → Prop
  | null : DistinctKeys .null
  | bool (value : Bool) : DistinctKeys (.bool value)
  | natural (value : UInt64) : DistinctKeys (.natural value)
  | numeral (written : String) : DistinctKeys (.numeral written)
  | text (value : String) : DistinctKeys (.text value)
  | list {items : List Json} (h : ∀ item ∈ items, DistinctKeys item) : DistinctKeys (.list items)
  | record {fields : List (String × Json)} (hkeys : (fields.map Prod.fst).Nodup)
      (h : ∀ field ∈ fields, DistinctKeys field.2) : DistinctKeys (.record fields)

theorem mem_insertField {key : String} {value : Json} {fields : List (String × Json)}
    {field : String × Json} (h : field ∈ insertField key value fields) :
    field = (key, value) ∨ field ∈ fields := by
  induction fields with
  | nil => exact Or.inl (List.mem_singleton.1 h)
  | cons first fields ih =>
    rw [insertField] at h
    split at h
    · exact (List.mem_cons.1 h).imp id (List.mem_cons_of_mem _)
    · rcases List.mem_cons.1 h with rfl | hrest
      · exact Or.inr List.mem_cons_self
      · exact (ih hrest).imp id (List.mem_cons_of_mem _)

theorem nodup_insertField {key : String} {value : Json} {fields : List (String × Json)}
    (h : (fields.map Prod.fst).Nodup) : ((insertField key value fields).map Prod.fst).Nodup := by
  induction fields with
  | nil => simp [insertField]
  | cons first fields ih =>
    rw [List.map_cons, List.nodup_cons] at h
    rw [insertField]
    split
    · rename_i heq
      rw [List.map_cons, List.nodup_cons]
      exact ⟨heq ▸ h.1, h.2⟩
    · rename_i hne
      rw [List.map_cons, List.nodup_cons]
      refine ⟨fun hmem => ?_, ih h.2⟩
      -- A key that is already there has kept its place, the new one comes last.
      obtain ⟨field, hfield, hkey⟩ := List.mem_map.1 hmem
      rcases mem_insertField hfield with rfl | hold
      · exact hne hkey.symm
      · exact h.1 (List.mem_map.2 ⟨field, hold, hkey⟩)

namespace Reader

variable {α β : Type}

/-- Whatever a reader gives, wherever it starts, has a property. -/
def Yields (reader : Reader α) (P : α → Prop) : Prop :=
  ∀ cursor result, reader.run cursor = .ok result → P result.1

theorem yields_pure {P : α → Prop} {a : α} (h : P a) : Yields (pure a) P := by
  intro cursor result hrun
  cases hrun
  exact h

theorem yields_bind {Q : α → Prop} {P : β → Prop} {reader : Reader α} {next : α → Reader β}
    (h : Yields reader Q) (hnext : ∀ a, Q a → Yields (next a) P) : Yields (reader >>= next) P := by
  intro cursor result hrun
  rw [StateT.run_bind] at hrun
  cases hfirst : reader.run cursor with
  | error fault => rw [hfirst] at hrun; cases hrun
  | ok first =>
    rw [hfirst] at hrun
    exact hnext first.1 (h cursor first hfirst) first.2 result hrun

/-- Nothing need be known of what is read first. -/
theorem yields_then {P : β → Prop} {reader : Reader α} {next : α → Reader β}
    (hnext : ∀ a, Yields (next a) P) : Yields (reader >>= next) P :=
  yields_bind (Q := fun _ => True) (fun _ _ _ => trivial) fun a _ => hnext a

theorem yields_failHere {P : α → Prop} (problem : Problem) : Yields (failHere problem) P := by
  intro cursor result hrun
  cases hrun

theorem yields_failNext {P : α → Prop} (problem : Problem) : Yields (failNext problem) P := by
  intro cursor result hrun
  unfold failNext at hrun
  rw [StateT.run_bind] at hrun
  dsimp only [StateT.run_get, bind, Except.bind, pure, Except.pure] at hrun
  split at hrun <;> cases hrun

theorem yields_word {written : String} {value : Json} (h : value.DistinctKeys) :
    Yields (word written value) DistinctKeys :=
  yields_then fun _ => yields_then fun _ => yields_pure h

theorem yields_number : Yields number DistinctKeys := by
  unfold number
  refine yields_then fun sign => ?_
  extract_lets negative rest
  have hrest : ∀ u, Yields (rest u) DistinctKeys := by
    intro u
    refine yields_then fun whole => ?_
    dsimp only
    refine yields_then fun fraction? => yields_then fun exponent? => ?_
    split
    · exact yields_failHere _
    · split
      · exact yields_pure (.natural _)
      · exact yields_pure (.numeral _)
  split
  · exact yields_then hrest
  · exact hrest ()

theorem yields_items {value : Reader Json} (hvalue : Yields value DistinctKeys) (bound : Nat)
    {read : List Json} (h : ∀ item ∈ read, item.DistinctKeys) :
    Yields (items value bound read) DistinctKeys := by
  induction bound generalizing read with
  | zero => exact yields_failNext _
  | succ bound ih =>
    rw [items]
    refine yields_then fun more => ?_
    split
    · exact yields_bind hvalue fun item hitem => ih (List.forall_mem_cons.2 ⟨hitem, h⟩)
    · exact yields_pure (.list fun item hitem => h item (List.mem_reverse.1 hitem))

theorem yields_fields {value : Reader Json} (hvalue : Yields value DistinctKeys) (bound : Nat)
    {first : Bool} {read : List (String × Json)} (hkeys : (read.map Prod.fst).Nodup)
    (h : ∀ field ∈ read, field.2.DistinctKeys) :
    Yields (fields value bound first read) DistinctKeys := by
  induction bound generalizing first read with
  | zero => exact yields_failNext _
  | succ bound ih =>
    rw [fields]
    refine yields_then fun more => ?_
    split
    · refine yields_then fun key => yields_then fun _ => yields_bind hvalue fun value hvalue => ?_
      refine ih (nodup_insertField hkeys) fun field hfield => ?_
      rcases mem_insertField hfield with rfl | hold
      · exact hvalue
      · exact h field hold
    · exact yields_pure (.record hkeys h)

/-- Lists and records are read with the reader of one level less. -/
theorem yields_value_of {depth : Nat}
    (h : ∀ inner, depth = inner + 1 → Yields (value inner) DistinctKeys) :
    Yields (value depth) DistinctKeys := by
  rw [value.eq_def]
  refine yields_then fun next? => ?_
  split
  · exact yields_failNext _
  · exact yields_word .null
  · exact yields_word (.bool true)
  · exact yields_word (.bool false)
  · rw [map_eq_pure_bind]
    exact yields_then fun text => yields_pure (.text text)
  · split
    · exact yields_number
    · split
      · split
        · exact yields_failNext _
        · exact yields_then fun _ => yields_then fun bound => yields_items (h _ rfl) bound nofun
      · split
        · split
          · exact yields_failNext _
          · exact yields_then fun _ => yields_then fun bound =>
              yields_fields (h _ rfl) bound List.nodup_nil nofun
        · exact yields_failNext _

theorem yields_value (depth : Nat) : Yields (value depth) DistinctKeys := by
  induction depth with
  | zero => exact yields_value_of fun _ h => nomatch h
  | succ depth ih => exact yields_value_of fun _ h => Nat.succ.inj h ▸ ih

theorem yields_document : Yields document DistinctKeys := by
  refine yields_bind (yields_value depthLimit) fun json hjson => yields_then fun next? => ?_
  cases next? with
  | none => exact yields_pure hjson
  | some c => exact yields_failNext _

end Reader

/-- **A text is read as a value that has each key once** in each of its records. -/
theorem distinctKeys_of_ofText {text : String} {json : Json} (h : ofText text = .ok json) :
    json.DistinctKeys := by
  rw [ofText, StateT.run'_eq] at h
  cases hrun : Reader.document.run ⟨{}, text.toList⟩ with
  | error fault => rw [hrun] at h; cases h
  | ok result =>
    rw [hrun] at h
    cases h
    exact Reader.yields_document _ result hrun

end TemplateCode.Json
