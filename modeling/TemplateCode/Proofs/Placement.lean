import TemplateCode.Settings
import TemplateCode.Proofs.Ancestors
import TemplateCode.Proofs.Decoding

/-!
# Where the code for a template goes

A path is read as a list of steps: where it starts, and then up or to a name. Segments that stay where they
are are no steps, so a path can be spelled in several ways. The code for a template goes one step further than
the directory for written code, wherever the template itself is. The name of this step has what can be read of
the stem of the template.

* `Path.components`: the steps of a path.
* `Path.components_join`: what is joined to a path, if it has one segment, is one more step.
* `Path.components_of_parent?`, `Path.fileName?_eq_some_iff`: the parent of a path lacks the last step, and the
  file name is the last step.
* `outputPath_placed`: where the code for a template goes, and when two templates share the place.
-/

namespace TemplateCode

namespace Path

/-- A step of a path. -/
inductive Component where
  /-- To the root of the file system. -/
  | root
  /-- To the working directory, by a first segment `.`. -/
  | here
  /-- Up to the parent. -/
  | up
  | name (segment : Segment)
deriving DecidableEq, Repr

/-- The step that a segment is, unless it stays where it is. -/
def Component.ofSegment (segment : Segment) : Component :=
  if segment = Path.up then .up else .name segment

/-- The step with which a path starts, if there is one. -/
def Anchor.components : Anchor → List Component
  | root => [.root]
  | here => [.here]
  | none => []

/-- The steps that segments are. -/
def steps (segments : List Segment) : List Component :=
  (segments.filter fun segment => !isIdle segment).map Component.ofSegment

/-- The steps of a path. -/
def components (path : Path) : List Component :=
  path.view.anchor.components ++ steps path.view.body

/-! ## Segments -/

theorem segments_append (front back : List UInt8) :
    segments (front ++ slash :: back) = segments front ++ segments back :=
  List.splitOn_append_cons_self front back

theorem segments_of_not_mem {bytes : List UInt8} (h : slash ∉ bytes) : segments bytes = [bytes] :=
  List.splitOn_eq_singleton h

theorem not_mem_of_mem_segments {segment : Segment} {bytes : List UInt8} (h : segment ∈ segments bytes) :
    slash ∉ segment := by
  unfold segments at h
  induction bytes generalizing segment with
  | nil => simp_all
  | cons byte bytes ih =>
    rw [List.splitOn_cons_eq_if_modifyHead] at h
    split at h
    · rcases List.mem_cons.1 h with rfl | hmem
      · exact List.not_mem_nil
      · exact ih hmem
    · rename_i hbyte
      obtain ⟨first, rest, hsegments⟩ := List.exists_cons_of_ne_nil (segments_ne_nil bytes)
      rw [segments] at hsegments
      rw [hsegments] at h ih
      rcases List.mem_cons.1 h with rfl | hmem
      · have hfirst := ih List.mem_cons_self
        have hne : slash ≠ byte := fun hslash => hbyte (beq_iff_eq.2 hslash.symm)
        simp [hfirst, hne]
      · exact ih (List.mem_cons_of_mem _ hmem)

/-- Segments without slashes are found again in the path that has them. -/
theorem segments_unite {body : List Segment} (hne : body ≠ []) (h : ∀ segment ∈ body, slash ∉ segment) :
    segments (unite body) = body :=
  List.splitOn_intercalate slash h hne

/-! ## Steps -/

theorem steps_append (front back : List Segment) : steps (front ++ back) = steps front ++ steps back := by
  simp [steps]

theorem steps_singleton {segment : Segment} (h : isIdle segment = false) :
    steps [segment] = [Component.ofSegment segment] := by
  simp [steps, h]

theorem steps_of_idle {segments : List Segment} (h : ∀ segment ∈ segments, isIdle segment = true) :
    steps segments = [] := by
  unfold steps
  rw [List.filter_eq_nil_iff.2 (by simpa using h), List.map_nil]

/-- What is left out at the end is no step. -/
theorem steps_settle (body : List Segment) : steps (settle body) = steps body := by
  have hsplit : settle body ++ body.rtakeWhile isIdle = body := List.rdropWhile_append_rtakeWhile
  have hidle : steps (body.rtakeWhile isIdle) = [] :=
    steps_of_idle fun segment hsegment => List.mem_rtakeWhile_imp hsegment
  calc steps (settle body)
      = steps (settle body) ++ steps (body.rtakeWhile isIdle) := by rw [hidle, List.append_nil]
    _ = steps body := by rw [← steps_append, hsplit]

theorem anchor_viewOf (segments : List Segment) : (viewOf segments).anchor = anchorOf segments := by
  unfold viewOf
  split <;> simp_all

/-- The segment with which a path may start is no further step. -/
theorem steps_viewOf (segments : List Segment) : steps (viewOf segments).body = steps segments := by
  unfold viewOf
  split
  · rfl
  · rename_i hanchor
    cases segments with
    | nil => exact absurd rfl hanchor
    | cons first rest =>
      have hidle : isIdle first = true := by
        by_contra hidle
        have hcases := not_or.1 (Bool.or_eq_true_iff.not.1 hidle)
        simp only [decide_eq_true_eq] at hcases
        exact hanchor (by rw [anchorOf, if_neg (fun hroot => hcases.1 hroot.1), if_neg hcases.2])
      simp [steps, hidle]

/-- **The steps of a path** by its segments. -/
theorem components_eq (path : Path) :
    path.components = (anchorOf (segments path.bytes)).components ++ steps (segments path.bytes) := by
  rw [components, view, anchor_viewOf, steps_viewOf]

/-! ## Joining -/

/-- What comes after the first segment does not matter for where a path starts. -/
theorem anchorOf_append {front back back' : List Segment} (hfront : front ≠ []) (hback : back ≠ [])
    (hback' : back' ≠ []) : anchorOf (front ++ back) = anchorOf (front ++ back') := by
  obtain ⟨first, rest, rfl⟩ := List.exists_cons_of_ne_nil hfront
  simp [anchorOf, hback, hback']

theorem anchorOf_append_of_ne {front : List Segment} (hfront : front ≠ []) (hne : front ≠ [[]])
    (back : List Segment) : anchorOf (front ++ back) = anchorOf front := by
  obtain ⟨first, rest, rfl⟩ := List.exists_cons_of_ne_nil hfront
  have hroot : first = [] → rest ≠ [] := by
    rintro rfl rfl
    exact hne rfl
  by_cases hfirst : first = []
  · simp [anchorOf, hfirst, hroot hfirst]
  · simp [anchorOf, hfirst]

/-- **Joining a single segment** to a path adds it as a step, however the path ends. -/
theorem components_join (base : Path) {name : Segment} (hslash : slash ∉ name) (hidle : isIdle name = false) :
    (base.join ⟨name⟩).components = base.components ++ [Component.ofSegment name] := by
  have hhead : ¬name.head? = some slash := fun hhead => hslash (List.mem_of_head? hhead)
  have hname : segments name = [name] := segments_of_not_mem hslash
  rw [join, if_neg hhead, ← steps_singleton hidle]
  split
  · rename_i hend
    rcases Bool.or_eq_true_iff.1 hend with hempty | hend
    -- nothing comes before the name, which must not be taken for where the path starts
    · have hbase : base.bytes = [] := List.isEmpty_iff.1 hempty
      have hdot : name ≠ here := by
        rintro rfl
        cases hidle
      have hanchor : anchorOf [name] = .none := by simp [anchorOf, hdot]
      rw [components_eq, components_eq, hbase, List.nil_append, hname, hanchor]
      rfl
    -- the name takes the place of the empty segment after the last slash
    · obtain ⟨front, hfront⟩ := List.getLast?_eq_some_iff.1 (of_decide_eq_true hend)
      have hbase : segments base.bytes = segments front ++ [[]] := by
        rw [hfront, segments_append]
        rfl
      have hjoined : segments (base.bytes ++ name) = segments front ++ [name] := by
        rw [hfront, List.append_assoc, List.singleton_append, segments_append, hname]
      have hblank : steps [[]] = [] := rfl
      rw [components_eq, components_eq, hbase, hjoined, steps_append, steps_append, hblank, List.append_nil,
        List.append_assoc]
      rw [anchorOf_append (segments_ne_nil front) (List.cons_ne_nil _ []) (List.cons_ne_nil _ [])]
  · rename_i hend
    have hne : segments base.bytes ≠ [[]] := by
      intro hblank
      have hbase := unite_segments base.bytes
      rw [hblank] at hbase
      exact hend (Bool.or_eq_true_iff.2 (Or.inl (List.isEmpty_iff.2 hbase.symm)))
    have hjoined : segments (base.bytes ++ slash :: name) = segments base.bytes ++ [name] := by
      rw [segments_append, hname]
    rw [components_eq, components_eq, hjoined, steps_append,
      anchorOf_append_of_ne (segments_ne_nil _) hne, List.append_assoc]

/-! ## The last step -/

/-- A view as it is read off a path: its segments are segments, and one that starts nowhere in particular does
not look as if it did. -/
structure View.Proper (view : View) : Prop where
  slash : ∀ segment ∈ view.body, Path.slash ∉ segment
  start : view.anchor = .none → anchorOf view.body = .none

theorem proper_view (path : Path) : path.view.Proper where
  slash := by
    intro segment hsegment
    have hmem : segment ∈ segments path.bytes := by
      unfold view viewOf at hsegment
      split at hsegment
      · exact hsegment
      · exact List.mem_of_mem_tail hsegment
    exact not_mem_of_mem_segments hmem
  start := by
    intro hanchor
    rw [view, anchor_viewOf] at hanchor
    rw [view, viewOf, hanchor]
    exact hanchor

namespace View.Proper

variable {view : View}

theorem front (h : view.Proper) {body : List Segment} (hbody : body <+: view.body) :
    View.Proper ⟨view.anchor, body⟩ where
  slash := fun segment hsegment => h.slash segment (hbody.subset hsegment)
  start := by
    intro hanchor
    have hstart := h.start hanchor
    obtain ⟨back, hback⟩ := hbody
    rw [← hback] at hstart
    dsimp only
    cases body with
    | nil => rfl
    | cons first rest =>
      simp only [anchorOf, List.cons_append] at hstart ⊢
      split at hstart
      · cases hstart
      · rename_i hroot
        split at hstart
        · cases hstart
        · rename_i hdot
          rw [if_neg (fun hrest => hroot ⟨hrest.1, by simp [hrest.2]⟩), if_neg hdot]

/-- The path of a view has the steps of the view. -/
theorem components_path (h : view.Proper) :
    view.path.components = view.anchor.components ++ steps view.body := by
  obtain ⟨anchor, body⟩ := view
  have hslash : ∀ segment ∈ body, Path.slash ∉ segment := h.slash
  have hbody : steps (segments (unite body)) = steps body := by
    by_cases hne : body = []
    · subst hne
      rfl
    · rw [segments_unite hne hslash]
  rw [components_eq, View.path]
  cases anchor with
  | root =>
    have hsegments : segments (Path.slash :: unite body) = [] :: segments (unite body) :=
      segments_append [] (unite body)
    have hanchor : anchorOf ([] :: segments (unite body)) = .root := if_pos ⟨rfl, segments_ne_nil _⟩
    dsimp only
    rw [hsegments, hanchor, ← hbody]
    rfl
  | here =>
    have hsegments : segments (unite (Path.here :: body)) = Path.here :: body :=
      segments_unite (List.cons_ne_nil _ _) (List.forall_mem_cons.2 ⟨by decide, hslash⟩)
    dsimp only
    rw [hsegments]
    rfl
  | none =>
    dsimp only
    rw [hbody]
    by_cases hne : body = []
    · subst hne
      rfl
    · rw [segments_unite hne hslash, h.start rfl]

end View.Proper

/-- The last step of segments that are not all idle. -/
theorem steps_eq_of_settle {body : List Segment} (h : settle body ≠ []) :
    steps body = steps (settle body).dropLast ++ [Component.ofSegment ((settle body).getLast h)] := by
  rw [← steps_singleton (isIdle_getLast_settle h), ← steps_append, List.dropLast_append_getLast, steps_settle]

theorem View.Proper.components_parent {view : View} (h : view.Proper) (hne : settle view.body ≠ []) :
    components (View.path ⟨view.anchor, settle (settle view.body).dropLast⟩) =
      (view.anchor.components ++ steps view.body).dropLast := by
  have hdropped := List.dropLast_prefix (settle view.body)
  have hinner := settle_prefix (settle view.body).dropLast
  have hfront := hinner.trans (hdropped.trans <| settle_prefix view.body)
  rw [(h.front hfront).components_path, steps_settle, steps_eq_of_settle hne, ← List.append_assoc,
    List.dropLast_concat]

/-- **The parent of a path** has the steps of the path but the last. -/
theorem components_of_parent? {path parent : Path} (h : path.parent? = some parent) :
    parent.components = path.components.dropLast := by
  unfold parent? at h
  dsimp only at h
  split at h
  · rename_i hsettle
    split at h
    · rename_i hanchor
      obtain rfl := Option.some.inj h
      have hpath : path.components = [.here] := by
        rw [components, ← steps_settle, hsettle, hanchor]
        rfl
      rw [hpath]
      rfl
    · cases h
  · rename_i first rest hsettle
    obtain rfl := Option.some.inj h
    rw [← hsettle]
    exact (proper_view path).components_parent (by simp [hsettle])

theorem Component.ofSegment_eq_name_iff {segment name : Segment} :
    Component.ofSegment segment = .name name ↔ segment = name ∧ name ≠ Path.up := by
  unfold Component.ofSegment
  split
  · rename_i hup
    constructor
    · rintro ⟨⟩
    · rintro ⟨rfl, hne⟩
      exact absurd hup hne
  · rename_i hup
    rw [Component.name.injEq]
    constructor
    · rintro rfl
      exact ⟨rfl, hup⟩
    · exact And.left

/-- **The file name of a path** is its last step, if that is a name. -/
theorem fileName?_eq_some_iff {path : Path} {name : Segment} :
    path.fileName? = some name ↔ path.components.getLast? = some (.name name) := by
  by_cases hne : settle path.view.body = []
  · have hlast : ∀ anchor : Anchor, anchor.components.getLast? ≠ some (.name name) := by
      intro anchor
      cases anchor <;> simp [Anchor.components]
    rw [fileName?, hne, components, ← steps_settle, hne]
    simpa [steps] using hlast path.view.anchor
  · rw [components, steps_eq_of_settle hne, ← List.append_assoc, List.getLast?_concat, Option.some_inj,
      Component.ofSegment_eq_name_iff, fileName?, List.getLast?_eq_some_getLast hne]
    dsimp only
    split
    · rename_i hup
      constructor
      · rintro ⟨⟩
      · rintro ⟨rfl, hne⟩
        exact absurd hup hne
    · rename_i hup
      rw [Option.some_inj]
      constructor
      · rintro rfl
        exact ⟨rfl, hup⟩
      · exact And.left

theorem exists_parent? {path : Path} {name : Segment} (h : path.fileName? = some name) :
    ∃ parent, path.parent? = some parent := by
  unfold fileName? at h
  unfold parent?
  cases hsettle : settle path.view.body with
  | nil => simp [hsettle] at h
  | cons first rest =>
    dsimp only
    rw [hsettle]
    exact ⟨_, rfl⟩

/-! ## Stems -/

theorem mem_view_of_fileName? {path : Path} {name : Segment} (h : path.fileName? = some name) :
    name ∈ path.view.body ∧ isIdle name = false := by
  unfold fileName? at h
  split at h
  · rename_i last hlast
    split at h
    · cases h
    · obtain rfl := Option.some.inj h
      have hne : settle path.view.body ≠ [] := by
        intro hnil
        rw [hnil] at hlast
        cases hlast
      rw [List.getLast?_eq_some_getLast hne] at hlast
      obtain rfl := Option.some.inj hlast
      have hsettle := settle_prefix path.view.body
      exact ⟨hsettle.subset (List.getLast_mem hne), isIdle_getLast_settle hne⟩
  · cases h

theorem mem_of_mem_stemOf {name : Segment} {byte : UInt8} (h : byte ∈ stemOf name) : byte ∈ name := by
  unfold stemOf at h
  split at h
  · exact h
  · have hsuffix : (name.reverse.dropWhile (· ≠ dot)).tail <:+ name.reverse :=
      (List.tail_suffix _).trans (List.dropWhile_suffix _)
    exact List.mem_reverse.1 (hsuffix.subset (List.mem_reverse.1 h))

theorem stemOf_ne_nil {name : Segment} (h : name ≠ []) : stemOf name ≠ [] := by
  unfold stemOf
  split
  · exact h
  · assumption

/-- A file stem has something in it and is within one segment. -/
theorem fileStem?_spec {path : Path} {stem : Segment} (h : path.fileStem? = some stem) :
    stem ≠ [] ∧ slash ∉ stem := by
  obtain ⟨name, hname, rfl⟩ := Option.map_eq_some_iff.1 h
  obtain ⟨hmem, hidle⟩ := mem_view_of_fileName? hname
  have hne : name ≠ [] := by
    rintro rfl
    cases hidle
  exact ⟨stemOf_ne_nil hne, fun hslash => (proper_view path).slash name hmem (mem_of_mem_stemOf hslash)⟩

end Path

/-! ## The place of the code -/

namespace Settings

variable {settings : Settings}

theorem outputName_eq (settings : Settings) (stem : Segment) :
    settings.outputName stem =
      Utf8.encode (Utf8.decode stem).toList ++ Path.dot :: Utf8.encode settings.extension.toList := by
  rw [outputName, Path.ofText, String.toList_append, String.toList_append, Utf8.encode_append,
    Utf8.encode_append, List.append_assoc]
  rfl

/-- The name of the code tells as much of the stem as can be read. -/
theorem outputName_injective {stem stem' : Segment} (h : settings.outputName stem = settings.outputName stem') :
    Utf8.decode stem = Utf8.decode stem' := by
  rw [outputName_eq, outputName_eq] at h
  exact String.toList_injective (Utf8.encode_injective (List.append_cancel_right h))

/-- A stem that is a text is all of the name up to the extension. -/
theorem outputName_of_text (settings : Settings) {stem : Segment} {text : String}
    (h : stem = (Path.ofText text).bytes) :
    settings.outputName stem = stem ++ Path.dot :: (Path.ofText settings.extension).bytes := by
  have hdecode : Utf8.decode stem = text := by
    rw [h]
    exact Path.text_ofText text
  rw [outputName_eq, hdecode, h]
  rfl

theorem encode_ne_nil {text : String} (h : text ≠ "") : Utf8.encode text.toList ≠ [] := by
  intro hnil
  exact h (String.toList_injective (Utf8.encode_injective (hnil.trans rfl)))

/-- A stem, a dot and an extension are more than a segment with a meaning of its own has. -/
theorem outputName_ne (hextension : settings.extension ≠ "") {stem : Segment} (hstem : stem ≠ [])
    {segment : Segment} (hsegment : segment.length ≤ 2) : settings.outputName stem ≠ segment := by
  have hdecode : Utf8.decode stem ≠ "" := by
    obtain ⟨byte, bytes, rfl⟩ := List.exists_cons_of_ne_nil hstem
    intro hempty
    exact Utf8.decodeFrom_cons_ne_nil byte bytes (by simpa [Utf8.decode] using congrArg String.toList hempty)
  have hstem' := List.length_pos_of_ne_nil (encode_ne_nil hdecode)
  have hextension' := List.length_pos_of_ne_nil (encode_ne_nil hextension)
  rintro rfl
  rw [outputName_eq, List.length_append, List.length_cons] at hsegment
  omega

variable (hextension : settings.extension ≠ "") (hslash : '/' ∉ settings.extension.toList)

include hslash in
theorem slash_not_mem_outputName {stem : Segment} (hstem : Path.slash ∉ stem) :
    Path.slash ∉ settings.outputName stem := by
  rw [outputName_eq, List.mem_append, List.mem_cons]
  rintro (hmem | hmem | hmem)
  · have hread := Utf8.slash_mem_of_mem_encode hmem
    rw [Utf8.decode, String.toList_ofList] at hread
    exact hstem (Utf8.slash_mem_of_mem_decodeFrom (by simp) hread)
  · exact absurd hmem (by decide)
  · exact hslash (Utf8.slash_mem_of_mem_encode hmem)

include hextension hslash in
/-- **The code for a template** is one step beyond the directory for written code. -/
theorem components_outputPath (root : Path) {input : Path} {stem : Segment}
    (hstem : input.fileStem? = some stem) :
    (settings.outputPath root input).components =
      (root.join settings.dir).components ++ [.name (settings.outputName stem)] := by
  obtain ⟨hne, hstemSlash⟩ := Path.fileStem?_spec hstem
  have hidle : Path.isIdle (settings.outputName stem) = false := by
    unfold Path.isIdle
    rw [Bool.or_eq_false_iff, decide_eq_false_iff_not, decide_eq_false_iff_not]
    exact ⟨outputName_ne hextension hne (by decide), outputName_ne hextension hne (by decide)⟩
  have hname : Path.Component.ofSegment (settings.outputName stem) = .name (settings.outputName stem) :=
    Path.Component.ofSegment_eq_name_iff.2 ⟨rfl, outputName_ne hextension hne (by decide)⟩
  rw [outputPath, hstem, Option.getD_some,
    Path.components_join _ (slash_not_mem_outputName hslash hstemSlash) hidle, hname]

end Settings

/-- **The code for a template goes directly into the directory for written code**, whatever the path of the
template: the extension being a text without slashes, its place is one step beyond the directory. The name of
this step is the stem of the template, a dot and the extension, if the stem is a text, and otherwise has what
can be read of the stem. Two templates have the same place, in spelling or by its steps, if and only if their
stems are read alike, which for texts means that they are the same. -/
theorem outputPath_placed (settings : Settings) (root : Path) (hextension : settings.extension ≠ "")
    (hslash : '/' ∉ settings.extension.toList) (input : Path) (stem : Segment)
    (hstem : input.fileStem? = some stem) :
    (settings.outputPath root input).components =
        (root.join settings.dir).components ++ [.name (settings.outputName stem)] ∧
      settings.outputName stem ≠ Path.here ∧ settings.outputName stem ≠ Path.up ∧
      (settings.outputPath root input).fileName? = some (settings.outputName stem) ∧
      (∃ parent, (settings.outputPath root input).parent? = some parent ∧
        parent.components = (root.join settings.dir).components) ∧
      (Path.isText ⟨stem⟩ = true →
        settings.outputName stem = stem ++ Path.dot :: (Path.ofText settings.extension).bytes) ∧
      ∀ input' stem', Path.fileStem? input' = some stem' →
        (settings.outputPath root input = settings.outputPath root input' ↔
          Utf8.decode stem = Utf8.decode stem') ∧
        ((settings.outputPath root input).components = (settings.outputPath root input').components ↔
          Utf8.decode stem = Utf8.decode stem') ∧
        (Path.isText ⟨stem⟩ = true → Path.isText ⟨stem'⟩ = true →
          (settings.outputPath root input = settings.outputPath root input' ↔ stem = stem')) := by
  have hcomponents := Settings.components_outputPath hextension hslash root hstem
  have hne : stem ≠ [] := (Path.fileStem?_spec hstem).1
  have hfileName : (settings.outputPath root input).fileName? = some (settings.outputName stem) := by
    rw [Path.fileName?_eq_some_iff, hcomponents, List.getLast?_concat]
  refine ⟨hcomponents, Settings.outputName_ne hextension hne (by decide),
    Settings.outputName_ne hextension hne (by decide), hfileName, ?_, ?_, ?_⟩
  · obtain ⟨parent, hparent⟩ := Path.exists_parent? hfileName
    refine ⟨parent, hparent, ?_⟩
    rw [Path.components_of_parent? hparent, hcomponents, List.dropLast_concat]
  · intro htext
    obtain ⟨text, htext⟩ := Path.isText_iff.1 htext
    exact settings.outputName_of_text (congrArg Path.bytes htext)
  · intro input' stem' hstem'
    -- the last steps tell the stems apart as far as they can be read, and this decides about the whole spelling
    have hstems : (settings.outputPath root input).components =
        (settings.outputPath root input').components → Utf8.decode stem = Utf8.decode stem' := by
      intro hsame
      rw [hcomponents, Settings.components_outputPath hextension hslash root hstem'] at hsame
      exact Settings.outputName_injective
        (Path.Component.name.inj (List.append_inj_right' hsame rfl |> List.cons.inj).1)
    have hoverlap : Utf8.decode stem = Utf8.decode stem' →
        settings.outputPath root input = settings.outputPath root input' := by
      intro hread
      rw [Settings.outputPath, Settings.outputPath, hstem, hstem', Option.getD_some, Option.getD_some,
        Settings.outputName, Settings.outputName, hread]
    refine ⟨⟨fun hsame => hstems (congrArg Path.components hsame), hoverlap⟩,
      ⟨hstems, fun hread => congrArg Path.components (hoverlap hread)⟩, fun htext htext' => ?_⟩
    refine ⟨fun hsame => ?_, fun hsame => hoverlap (congrArg Utf8.decode hsame)⟩
    have hread : Path.text ⟨stem⟩ = Path.text ⟨stem'⟩ := hstems (congrArg Path.components hsame)
    have hsegments : Path.mk stem = Path.mk stem' := by
      rw [← of_decide_eq_true htext, hread]
      exact of_decide_eq_true htext'
    exact congrArg Path.bytes hsegments

/-- A directory that is spelled with a step up and ends in a slash, and an extension of two parts. -/
def windingSettings : Settings where
  dir := "./build/../out/"
  extension := "gen.ts"

theorem outputPath_placed_windingSettings :
    windingSettings.extension ≠ "" ∧ '/' ∉ windingSettings.extension.toList ∧
      Path.fileStem? "/pages/../..draft.html/." = some (Path.ofText "..draft").bytes ∧
      (windingSettings.outputPath "site" "/pages/../..draft.html/.").components =
        [.name (Path.ofText "site").bytes, .name (Path.ofText "build").bytes, .up,
          .name (Path.ofText "out").bytes, .name (Path.ofText "..draft.gen.ts").bytes] ∧
      windingSettings.outputPath "site" "/pages/../..draft.html/." =
        windingSettings.outputPath "site" "..draft.svelte" ∧
      windingSettings.outputPath "site" "/pages/../..draft.html/." ≠
        windingSettings.outputPath "site" "..draft" := by
  have hextension : windingSettings.extension ≠ "" := by decide
  have hslash : '/' ∉ windingSettings.extension.toList := by decide +kernel
  have hstem : Path.fileStem? "/pages/../..draft.html/." = some (Path.ofText "..draft").bytes := by
    decide +kernel
  obtain ⟨hcomponents, -, -, -, -, -, hstems⟩ :=
    outputPath_placed windingSettings "site" hextension hslash "/pages/../..draft.html/." _ hstem
  refine ⟨hextension, hslash, hstem, hcomponents.trans (by decide +kernel), ?_, ?_⟩
  · exact (hstems "..draft.svelte" (Path.ofText "..draft").bytes (by decide +kernel)).1.2 rfl
  · refine ((hstems "..draft" (Path.ofText ".").bytes (by decide +kernel)).2.2 ?_ ?_).not.2 (by decide +kernel)
    · exact Path.isText_ofText "..draft"
    · exact Path.isText_ofText "."

/-- **Stems that are no texts may be read alike.** Two templates then have the same place, by a name that is
that of neither. -/
theorem outputPath_misread :
    Path.fileStem? ⟨[0xFF]⟩ = some [0xFF] ∧ Path.fileStem? ⟨[0xFE]⟩ = some [0xFE] ∧
      Settings.outputPath {} "" ⟨[0xFF]⟩ = Settings.outputPath {} "" ⟨[0xFE]⟩ ∧
      (Settings.outputPath {} "" ⟨[0xFF]⟩).fileName? ≠ some ([0xFF] ++ (Path.ofText ".ts").bytes) := by
  decide +kernel

end TemplateCode
