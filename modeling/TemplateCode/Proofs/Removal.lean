import TemplateCode.Proofs.Unterminated
import Mathlib.Data.List.DropRight
import Mathlib.Data.Set.Image

/-!
# What is removed from markup

A region starts with `<` and ends with `>`, and its tags are read in either case. So what is removed from
a text does not depend on a text before it that has no `<`, on a text after it that has no `>`, or on the
case of letters.

* `removed`: the places of a text that a pass removes, `leavesOut_pass`: it leaves what stands elsewhere.
* `SameEnds`: two texts in which the same ends are read at the same places, `SameEnds.regionAt`: then the
  same regions start in them, if they start alike.
* `strip_local`: stripping between two texts.
* `strip_toLower`: stripping and letter case.
-/

namespace TemplateCode.Markup

/-! ## Places that are removed -/

namespace Cut

/-- For each character of a text, whether it is in a region. -/
def marks (cut : Cut) : List Bool :=
  cut.pieces.flatMap (fun (gap, region) => gap.map (fun _ => false) ++ region.map fun _ => true) ++
    cut.last.map fun _ => false

/-- A cut of a text with `front` before it. -/
def prepend (front : List Char) : Cut → Cut
  | ⟨[], last⟩ => ⟨[], front ++ last⟩
  | ⟨(gap, region) :: pieces, last⟩ => ⟨(front ++ gap, region) :: pieces, last⟩

/-- A cut of a text with `rest` after it. -/
def append (cut : Cut) (rest : List Char) : Cut :=
  ⟨cut.pieces, cut.last ++ rest⟩

/-- A cut of a text with `f` done to its characters. -/
def map (f : Char → Char) (cut : Cut) : Cut :=
  ⟨cut.pieces.map fun (gap, region) => (gap.map f, region.map f), cut.last.map f⟩

section

variable (cut : Cut) (front rest : List Char) (f : Char → Char)

theorem text_prepend : (cut.prepend front).text = front ++ cut.text := by
  rcases cut with ⟨_ | ⟨⟨gap, region⟩, pieces⟩, last⟩ <;> simp [prepend, text]

theorem kept_prepend : (cut.prepend front).kept = front ++ cut.kept := by
  rcases cut with ⟨_ | ⟨⟨gap, region⟩, pieces⟩, last⟩ <;> simp [prepend, kept]

theorem marks_prepend : (cut.prepend front).marks = (front.map fun _ => false) ++ cut.marks := by
  rcases cut with ⟨_ | ⟨⟨gap, region⟩, pieces⟩, last⟩ <;>
    simp only [prepend, marks, List.flatMap_cons, List.flatMap_nil, List.map_append, List.append_assoc,
      List.nil_append]

theorem text_append : (cut.append rest).text = cut.text ++ rest := by
  simp [append, text]

theorem kept_append : (cut.append rest).kept = cut.kept ++ rest := by
  simp [append, kept]

theorem marks_append : (cut.append rest).marks = cut.marks ++ rest.map fun _ => false := by
  simp only [append, marks, List.map_append, List.append_assoc]

theorem text_map : (cut.map f).text = cut.text.map f := by
  simp [map, text, List.flatMap_map, List.map_flatMap]

theorem kept_map : (cut.map f).kept = cut.kept.map f := by
  simp [map, kept, List.flatMap_map, List.map_flatMap]

theorem marks_map : (cut.map f).marks = cut.marks := by
  simp [map, marks, List.flatMap_map]

theorem length_marks : cut.marks.length = cut.text.length := by
  simp [marks, text, List.length_flatMap]

/-- The characters that are kept are those that are in no region. -/
theorem kept_eq_filter :
    cut.kept = ((cut.text.zip cut.marks).filter fun (_, inRegion) => !inRegion).map Prod.fst := by
  have hgap : ∀ cs : List Char,
      ((cs.zip (cs.map fun _ => false)).filter fun x => !x.2).map Prod.fst = cs := by
    intro cs
    induction cs with
    | nil => rfl
    | cons c cs ih => simpa using ih
  have hregion : ∀ cs : List Char, ((cs.zip (cs.map fun _ => true)).filter fun x => !x.2) = [] := by
    intro cs
    induction cs with
    | nil => rfl
    | cons c cs ih => simpa using ih
  obtain ⟨pieces, last⟩ := cut
  induction pieces with
  | nil => exact (hgap last).symm
  | cons piece pieces ih =>
    obtain ⟨gap, region⟩ := piece
    simp only [kept, text, marks, List.flatMap_cons, List.append_assoc] at ih ⊢
    rw [List.zip_append (by simp), List.zip_append (by simp), List.filter_append, List.filter_append,
      List.map_append, List.map_append, hgap, hregion, ih]
    simp

end

end Cut

/-- The places of a text that the pass for a tag removes. -/
def removed (tag : Tag) (cs : List Char) : Set Nat :=
  {i | ∃ cut, IsCut tag cs cut ∧ cut.marks[i]? = some true}

/-- What is kept of a text is all but what stands at some places. -/
def LeavesOut (places : Set Nat) (cs kept : List Char) : Prop :=
  ∃ marks : List Bool, marks.length = cs.length ∧ (∀ i, i ∈ places ↔ marks[i]? = some true) ∧
    kept = ((cs.zip marks).filter fun (_, mark) => !mark).map Prod.fst

section

variable {tag : Tag} {cs cs' : List Char} {n : Nat}

theorem mem_removed_iff {cut : Cut} (h : IsCut tag cs cut) {i : Nat} :
    i ∈ removed tag cs ↔ cut.marks[i]? = some true := by
  constructor
  · rintro ⟨other, hother, hi⟩
    obtain rfl : other = cut := hother.leftmost.unique h.leftmost (hother.text_eq.trans h.text_eq.symm)
    exact hi
  · intro hi
    exact ⟨cut, h, hi⟩

/-- **A pass leaves what stands at the places that are not removed.** -/
theorem leavesOut_pass (tag : Tag) (cs : List Char) : LeavesOut (removed tag cs) cs (pass tag cs) := by
  obtain ⟨cut, hcut⟩ := exists_isCut tag cs
  refine ⟨cut.marks, ?_, fun i => mem_removed_iff hcut, ?_⟩
  · rw [cut.length_marks, hcut.text_eq]
  · rw [pass_eq_kept hcut, cut.kept_eq_filter, hcut.text_eq]

/-! ## Texts that are read alike -/

/-- Two texts in which the same ends of comments and elements are read at the same places. -/
structure SameEnds (tag : Tag) (cs cs' : List Char) : Prop where
  comment : ∀ i, ['-', '-', '>'] <+: cs.drop i ↔ ['-', '-', '>'] <+: cs'.drop i
  selfClosed : ∀ i, ['/', '>'] <+: cs.drop i ↔ ['/', '>'] <+: cs'.drop i
  closed : ∀ i, ['>'] <+: cs.drop i ↔ ['>'] <+: cs'.drop i
  closes : ∀ i, tag.Closes (cs.drop i) ↔ tag.Closes (cs'.drop i)

/-- What begins at the head of a text also begins at the head of another, as far as that one goes. -/
structure StartsIn (tag : Tag) (cs cs' : List Char) : Prop where
  comment : 4 ≤ cs'.length → ['<', '!', '-', '-'] <+: cs → ['<', '!', '-', '-'] <+: cs'
  opens : tag.openLength ≤ cs'.length → tag.Opens cs → tag.Opens cs'
  blank : ∀ c, tag.openLength < cs'.length → cs[tag.openLength]? = some c → isBlank c = true →
    ∃ c', cs'[tag.openLength]? = some c' ∧ isBlank c' = true

theorem SameEnds.symm (h : SameEnds tag cs cs') : SameEnds tag cs' cs where
  comment i := (h.comment i).symm
  selfClosed i := (h.selfClosed i).symm
  closed i := (h.closed i).symm
  closes i := (h.closes i).symm

theorem SameEnds.endsAt_iff (h : SameEnds tag cs cs') {j : Nat} :
    EndsAt tag cs j n ↔ EndsAt tag cs' j n := by
  simp only [Markup.endsAt_iff, h.selfClosed, h.closed, h.closes]

theorem RegionAt.exists_cons (h : RegionAt tag cs n) : ∃ after, cs = '<' :: after := by
  rcases h.begins with ⟨after, hafter⟩ | ⟨name, after, -, hafter⟩
  · exact ⟨_, hafter.symm⟩
  · exact ⟨_, hafter⟩

/-- **A region goes over to a text with the same ends** in which what it begins with begins as well. -/
theorem SameEnds.regionAt (hends : SameEnds tag cs cs') (hstart : StartsIn tag cs cs')
    (h : RegionAt tag cs n) : RegionAt tag cs' n := by
  cases h with
  | @comment k hcomment hk =>
    simp only [hends.comment] at hk
    have hwithin := add_length_le_of_prefix_drop hk.1.2 (by decide)
    have hlength : 4 ≤ cs'.length := hk.1.1.trans (by omega)
    exact .comment (hstart.comment hlength hcomment) hk
  | bare hopens hstop =>
    have hstop' := hends.endsAt_iff.1 hstop
    have hlength : tag.openLength ≤ cs'.length := (Nat.le_of_lt hstop'.lt).trans hstop'.le_length
    exact .bare (hstart.opens hlength hopens) hstop'
  | @spaced c j _ hopens hc hblank hj hstop =>
    simp only [hends.endsAt_iff] at hj
    have hstop' := hends.endsAt_iff.1 hstop
    have hlength : tag.openLength < cs'.length := by
      have hplace := hj.1.1
      have hlt := hstop'.lt
      have hle := hstop'.le_length
      omega
    obtain ⟨c', hc', hblank'⟩ := hstart.blank c hlength hc hblank
    exact .spaced (hstart.opens hlength.le hopens) hc' hblank' hj hstop'

end

/-! ## Between two texts -/

section

variable {tag : Tag} {cs front rest : List Char} {n : Nat}

/-- What ends with `>` is not read on in a text that has none. -/
theorem prefix_append_iff_of_not_mem (word : List Char) (hrest : '>' ∉ rest) :
    word ++ ['>'] <+: cs ++ rest ↔ word ++ ['>'] <+: cs := by
  constructor
  · intro h
    by_cases hlength : (word ++ ['>']).length ≤ cs.length
    · exact (List.isPrefix_append_of_length hlength).1 h
    · -- the sign is in the rest
      obtain ⟨after, hafter⟩ := h
      rw [List.length_append, List.length_singleton] at hlength
      have hsign : (cs ++ rest)[word.length]? = some '>' := by
        rw [← hafter]
        simp
      rw [List.getElem?_append_right (by omega)] at hsign
      exact absurd (List.mem_of_getElem? hsign) hrest
  · intro h
    exact h.trans (List.prefix_append cs rest)

theorem closes_append_iff (hrest : '>' ∉ rest) : tag.Closes (cs ++ rest) ↔ tag.Closes cs := by
  have hcloses : ∀ cs, tag.Closes cs ↔ ∃ name, tag.Spelled name ∧ '<' :: '/' :: name ++ ['>'] <+: cs := by
    intro cs
    constructor
    · rintro ⟨name, after, hname, rfl⟩
      exact ⟨name, hname, after, by simp⟩
    · rintro ⟨name, hname, after, rfl⟩
      exact ⟨name, after, hname, by simp⟩
  simp only [hcloses, prefix_append_iff_of_not_mem _ hrest]

theorem sameEnds_append (hrest : '>' ∉ rest) : SameEnds tag (cs ++ rest) cs := by
  have hdrop : ∀ i, (cs ++ rest).drop i = cs.drop i ++ rest.drop (i - cs.length) := fun i => List.drop_append
  have hrest' : ∀ i, '>' ∉ rest.drop (i - cs.length) := fun i h => hrest (List.mem_of_mem_drop h)
  constructor <;> intro i <;> rw [hdrop i]
  · exact prefix_append_iff_of_not_mem ['-', '-'] (hrest' i)
  · exact prefix_append_iff_of_not_mem ['/'] (hrest' i)
  · exact prefix_append_iff_of_not_mem [] (hrest' i)
  · exact closes_append_iff (hrest' i)

theorem startsIn_of_append : StartsIn tag (cs ++ rest) cs where
  comment hlength h := by
    have hle : ['<', '!', '-', '-'].length ≤ cs.length := hlength
    exact (List.isPrefix_append_of_length hle).1 h
  opens hlength h := by
    obtain ⟨name, after, hname, hcs⟩ := h
    have hstart : '<' :: name <+: cs ++ rest := ⟨after, hcs.symm⟩
    have hle : ('<' :: name).length ≤ cs.length := by
      rw [List.length_cons, hname.length_eq]
      exact hlength
    obtain ⟨after', rfl⟩ := (List.isPrefix_append_of_length hle).1 hstart
    exact ⟨name, after', hname, rfl⟩
  blank c hlength hc hblank := by
    rw [List.getElem?_append_left hlength] at hc
    exact ⟨c, hc, hblank⟩

theorem startsIn_append : StartsIn tag cs (cs ++ rest) where
  comment _ h := h.trans (List.prefix_append cs rest)
  opens _ h := by
    obtain ⟨name, after, hname, rfl⟩ := h
    exact ⟨name, after ++ rest, hname, by simp⟩
  blank c _ hc hblank := by
    have hlength := (List.getElem?_eq_some_iff.1 hc).1
    exact ⟨c, by rw [List.getElem?_append_left hlength, hc], hblank⟩

/-- **A text without `>` ends no region** of a text before it, and moves the end of none. -/
theorem regionAt_append_iff (hrest : '>' ∉ rest) : RegionAt tag (cs ++ rest) n ↔ RegionAt tag cs n :=
  ⟨(sameEnds_append hrest).regionAt startsIn_of_append, (sameEnds_append hrest).symm.regionAt startsIn_append⟩

theorem noRegionBefore_append_iff (hrest : '>' ∉ rest) :
    NoRegionBefore tag (cs ++ rest) n ↔ NoRegionBefore tag cs n := by
  have hregion : ∀ i stop, RegionAt tag ((cs ++ rest).drop i) stop ↔ RegionAt tag (cs.drop i) stop := by
    intro i stop
    rw [List.drop_append]
    exact regionAt_append_iff fun h => hrest (List.mem_of_mem_drop h)
  simp only [NoRegionBefore, hregion]

/-- No region starts behind a text. -/
theorem NoRegionBefore.of_length (h : NoRegionBefore tag cs cs.length) (n : Nat) : NoRegionBefore tag cs n := by
  intro i _ stop hregion
  have hpos := hregion.pos
  have hle := hregion.le_length
  rw [List.length_drop] at hle
  exact h i (by omega) stop hregion

/-- **A text without `<` starts no region.** -/
theorem NoRegionBefore.prepend (hfront : '<' ∉ front) (h : NoRegionBefore tag cs n) :
    NoRegionBefore tag (front ++ cs) (front.length + n) := by
  intro i hi stop hregion
  obtain ⟨after, hafter⟩ := hregion.exists_cons
  have hle := length_le_of_not_mem hfront hafter
  rw [drop_append_of_not_mem hfront hafter] at hregion
  exact h (i - front.length) (by omega) stop hregion

theorem IsCut.append {cut : Cut} (h : IsCut tag cs cut) (hrest : '>' ∉ rest) :
    IsCut tag (cs ++ rest) (cut.append rest) := by
  obtain ⟨rfl, hcut⟩ := h
  refine ⟨cut.text_append rest, ?_⟩
  induction hcut with
  | @last gap hgap => exact .last ((noRegionBefore_append_iff hrest).2 (hgap.of_length _))
  | @after gap region cut hgap hregion _ ih =>
    change ((cut.append rest).after gap region).Leftmost tag
    refine .after ?_ ?_ ih
    · rw [Cut.text_append, ← List.append_assoc region, ← List.append_assoc gap]
      exact (noRegionBefore_append_iff hrest).2 hgap
    · rw [Cut.text_append, ← List.append_assoc region]
      exact (regionAt_append_iff hrest).2 hregion

theorem IsCut.prepend {cut : Cut} (h : IsCut tag cs cut) (hfront : '<' ∉ front) :
    IsCut tag (front ++ cs) (cut.prepend front) := by
  obtain ⟨rfl, hcut⟩ := h
  refine ⟨cut.text_prepend front, ?_⟩
  cases hcut with
  | @last gap hgap =>
    refine .last ?_
    rw [List.length_append]
    exact hgap.prepend hfront
  | @after gap region cut hgap hregion hcut =>
    change (cut.after (front ++ gap) region).Leftmost tag
    refine .after ?_ hregion hcut
    rw [List.append_assoc, List.length_append]
    exact hgap.prepend hfront

theorem IsCut.between {cut : Cut} (h : IsCut tag cs cut) (hfront : '<' ∉ front) (hrest : '>' ∉ rest) :
    IsCut tag (front ++ cs ++ rest) ((cut.prepend front).append rest) :=
  (h.prepend hfront).append hrest

/-- A pass between two texts leaves both of them. -/
theorem pass_between (hfront : '<' ∉ front) (hrest : '>' ∉ rest) :
    pass tag (front ++ cs ++ rest) = front ++ pass tag cs ++ rest := by
  obtain ⟨cut, hcut⟩ := exists_isCut tag cs
  rw [pass_eq_kept (hcut.between hfront hrest), Cut.kept_append, Cut.kept_prepend, pass_eq_kept hcut]

/-- And it removes the same places, counted from the end of the first text. -/
theorem removed_between (hfront : '<' ∉ front) (hrest : '>' ∉ rest) :
    removed tag (front ++ cs ++ rest) = Set.image (front.length + ·) (removed tag cs) := by
  obtain ⟨cut, hcut⟩ := exists_isCut tag cs
  ext i
  rw [mem_removed_iff (hcut.between hfront hrest), Cut.marks_append, Cut.marks_prepend, List.append_assoc]
  simp only [Set.mem_image, mem_removed_iff hcut]
  have hkept : ∀ (cs : List Char) (j : Nat), (cs.map fun _ => false)[j]? ≠ some true := by
    intro cs j hj
    have hmem := List.mem_of_getElem? hj
    simp at hmem
  constructor
  · intro hi
    by_cases hlt : i < (front.map fun _ => false).length
    · rw [List.getElem?_append_left hlt] at hi
      exact absurd hi (hkept front i)
    · rw [List.getElem?_append_right (by omega), List.length_map] at hi
      rw [List.length_map] at hlt
      refine ⟨i - front.length, ?_, by omega⟩
      by_cases hmark : i - front.length < cut.marks.length
      · rwa [List.getElem?_append_left hmark] at hi
      · rw [List.getElem?_append_right (by omega)] at hi
        exact absurd hi (hkept rest _)
  · rintro ⟨j, hj, rfl⟩
    have hmark : j < cut.marks.length := (List.getElem?_eq_some_iff.1 hj).1
    rw [List.getElem?_append_right (by simp), List.length_map, Nat.add_sub_cancel_left,
      List.getElem?_append_left hmark, hj]

end

/-- **Stripping is local.** A markup text between a text without `<` and a text without `>` is stripped as it
is alone: both texts are kept, and each pass, which leaves out the places that it removes, removes the same
places. So whatever stands before the first `<` or after the last `>` of a text is kept. -/
theorem strip_local :
    (∀ tag cs, LeavesOut (removed tag cs) cs (pass tag cs)) ∧
      (∀ before markup after : String, '<' ∉ before.toList → '>' ∉ after.toList →
        strip (before ++ markup ++ after) = before ++ strip markup ++ after ∧
          removed .style (before ++ markup ++ after).toList =
            Set.image (before.length + ·) (removed .style markup.toList) ∧
          removed .script (pass .style (before ++ markup ++ after).toList) =
            Set.image (before.length + ·) (removed .script (pass .style markup.toList))) ∧
      ∀ markup : String, markup.toList.takeWhile (· ≠ '<') <+: (strip markup).toList ∧
        markup.toList.rtakeWhile (· ≠ '>') <:+ (strip markup).toList := by
  have hstrip : ∀ front cs rest : List Char, '<' ∉ front → '>' ∉ rest →
      pass .script (pass .style (front ++ cs ++ rest)) = front ++ pass .script (pass .style cs) ++ rest := by
    intro front cs rest hfront hrest
    rw [pass_between hfront hrest, pass_between hfront hrest]
  refine ⟨leavesOut_pass, fun before markup after hbefore hafter => ⟨?_, ?_, ?_⟩, fun markup => ⟨?_, ?_⟩⟩
  · apply String.toList_injective
    simp only [strip, String.toList_append, String.toList_ofList]
    exact hstrip _ _ _ hbefore hafter
  · rw [String.toList_append, String.toList_append, removed_between hbefore hafter, String.length_toList]
  · rw [String.toList_append, String.toList_append, pass_between hbefore hafter,
      removed_between hbefore hafter, String.length_toList]
  · have hfront : '<' ∉ markup.toList.takeWhile (· ≠ '<') := fun h => by simpa using List.mem_takeWhile_imp h
    have hsplit := hstrip _ (markup.toList.dropWhile (· ≠ '<')) [] hfront List.not_mem_nil
    rw [List.takeWhile_append_dropWhile, List.append_nil, List.append_nil] at hsplit
    rw [strip, String.toList_ofList, hsplit]
    exact List.prefix_append _ _
  · have hrest : '>' ∉ markup.toList.rtakeWhile (· ≠ '>') := fun h => by simpa using List.mem_rtakeWhile_imp h
    have hsplit := hstrip [] (markup.toList.rdropWhile (· ≠ '>')) _ List.not_mem_nil hrest
    rw [List.nil_append, List.nil_append, List.rdropWhile_append_rtakeWhile] at hsplit
    rw [strip, String.toList_ofList, hsplit]
    exact List.suffix_append _ _

/-- The text after the markup goes on with what would end the comment but for its `>`. -/
theorem strip_local_openComment :
    strip ("a > b" ++ "<style>c</style>d<!-- e" ++ "--/<style") =
      "a > b" ++ "d<!-- e" ++ "--/<style" := by
  have hmarkup : strip "<style>c</style>d<!-- e" = "d<!-- e" := by decide +kernel
  have hlocal := strip_local.2.1 "a > b" "<style>c</style>d<!-- e" "--/<style" (by decide) (by decide)
  rw [hlocal.1, hmarkup]

/-! ## Letter case -/

theorem toList_toLower (text : String) : text.toLower.toList = text.toList.map Char.toLower :=
  String.toList_map

/-- Signs have no case. -/
theorem toLower_eq_iff {c d : Char} (h : d.toNat < 65) : c.toLower = d ↔ c = d := by
  simp only [← Char.toNat_inj, toNat_toLower]
  split <;> omega

theorem isLetter_toLower (letter c : Char) : isLetter letter c.toLower = isLetter letter c := by
  have hlower : c.toLower.toLower = c.toLower := by
    simp only [← Char.toNat_inj, toNat_toLower]
    split
    · rw [if_neg (by omega)]
    · rfl
  have hlong : (c.toLower == 'ſ') = (c == 'ſ') := by
    have hcode : 'ſ'.toNat = 383 := rfl
    rw [Bool.eq_iff_iff, beq_iff_eq, beq_iff_eq]
    simp only [← Char.toNat_inj, toNat_toLower, hcode]
    split <;> omega
  rw [isLetter, isLetter, hlower, hlong]

theorem isBlank_toLower (c : Char) : isBlank c.toLower = isBlank c := by
  by_cases hcapital : 65 ≤ c.toNat ∧ c.toNat ≤ 90
  · -- neither a capital nor a small letter is white space
    have hletter : ∀ d : Char, 65 ≤ d.toNat ∧ d.toNat ≤ 122 → isBlank d = false := by
      intro d hd
      simp [isBlank, blankRanges]
      omega
    rw [hletter c (by omega), hletter c.toLower (by rw [toNat_toLower, if_pos hcapital]; omega)]
  · have hsame : c.toLower = c := by
      rw [← Char.toNat_inj, toNat_toLower, if_neg hcapital]
    rw [hsame]

section

variable {tag : Tag} {cs : List Char} {n : Nat}

theorem prefix_map_toLower_iff {word : List Char} (h : ∀ c ∈ word, c.toNat < 65) :
    word <+: cs.map Char.toLower ↔ word <+: cs := by
  induction word generalizing cs with
  | nil => simp
  | cons c word ih =>
    obtain ⟨hc, hword⟩ := List.forall_mem_cons.1 h
    cases cs with
    | nil => simp
    | cons d cs =>
      rw [List.map_cons, List.cons_prefix_cons, List.cons_prefix_cons, ih hword, eq_comm, toLower_eq_iff hc,
        eq_comm]

theorem Tag.spelled_map_toLower_iff {name : List Char} :
    tag.Spelled (name.map Char.toLower) ↔ tag.Spelled name := by
  simp only [spelled_iff, List.forall₂_map_right_iff, isLetter_toLower]

theorem Tag.opens_map_toLower_iff : tag.Opens (cs.map Char.toLower) ↔ tag.Opens cs := by
  constructor
  · rintro ⟨name, rest, hname, hcs⟩
    obtain ⟨c, cs', rfl, hc, hcs'⟩ := List.map_eq_cons_iff.1 hcs
    obtain ⟨name', rest', rfl, rfl, -⟩ := List.map_eq_append_iff.1 hcs'
    obtain rfl := (toLower_eq_iff (by decide)).1 hc
    exact ⟨name', rest', spelled_map_toLower_iff.1 hname, rfl⟩
  · rintro ⟨name, rest, hname, rfl⟩
    exact ⟨_, rest.map Char.toLower, spelled_map_toLower_iff.2 hname, by simp⟩

theorem Tag.closes_map_toLower_iff : tag.Closes (cs.map Char.toLower) ↔ tag.Closes cs := by
  constructor
  · rintro ⟨name, rest, hname, hcs⟩
    obtain ⟨c, cs', rfl, hc, hcs'⟩ := List.map_eq_cons_iff.1 hcs
    obtain ⟨slash, cs'', rfl, hslash, hcs''⟩ := List.map_eq_cons_iff.1 hcs'
    obtain ⟨name', last, rfl, rfl, hlast⟩ := List.map_eq_append_iff.1 hcs''
    obtain ⟨stop, rest', rfl, hstop, -⟩ := List.map_eq_cons_iff.1 hlast
    obtain rfl := (toLower_eq_iff (by decide)).1 hc
    obtain rfl := (toLower_eq_iff (by decide)).1 hslash
    obtain rfl := (toLower_eq_iff (by decide)).1 hstop
    exact ⟨name', rest', spelled_map_toLower_iff.1 hname, rfl⟩
  · rintro ⟨name, rest, hname, rfl⟩
    exact ⟨_, rest.map Char.toLower, spelled_map_toLower_iff.2 hname, by simp⟩

theorem sameEnds_map_toLower : SameEnds tag (cs.map Char.toLower) cs := by
  constructor <;> intro i <;> rw [← List.map_drop]
  · exact prefix_map_toLower_iff (by simp)
  · exact prefix_map_toLower_iff (by simp)
  · exact prefix_map_toLower_iff (by simp)
  · exact Tag.closes_map_toLower_iff

/-- **The same regions start in a text, whatever the case** of its letters. -/
theorem regionAt_map_toLower_iff : RegionAt tag (cs.map Char.toLower) n ↔ RegionAt tag cs n := by
  constructor
  · refine sameEnds_map_toLower.regionAt ⟨fun _ => (prefix_map_toLower_iff (by simp)).1,
      fun _ => Tag.opens_map_toLower_iff.1, fun c _ hc hblank => ?_⟩
    rw [List.getElem?_map, Option.map_eq_some_iff] at hc
    obtain ⟨d, hd, rfl⟩ := hc
    exact ⟨d, hd, by rwa [isBlank_toLower] at hblank⟩
  · refine sameEnds_map_toLower.symm.regionAt ⟨fun _ => (prefix_map_toLower_iff (by simp)).2,
      fun _ => Tag.opens_map_toLower_iff.2, fun c _ hc hblank => ?_⟩
    exact ⟨c.toLower, by rw [List.getElem?_map, hc, Option.map_some], by rwa [isBlank_toLower]⟩

theorem noRegionBefore_map_toLower_iff :
    NoRegionBefore tag (cs.map Char.toLower) n ↔ NoRegionBefore tag cs n := by
  simp only [NoRegionBefore, ← List.map_drop, regionAt_map_toLower_iff]

theorem IsCut.map_toLower {cut : Cut} (h : IsCut tag cs cut) :
    IsCut tag (cs.map Char.toLower) (cut.map Char.toLower) := by
  obtain ⟨rfl, hcut⟩ := h
  refine ⟨cut.text_map _, ?_⟩
  induction hcut with
  | @last gap hgap =>
    refine .last ?_
    rw [List.length_map]
    exact noRegionBefore_map_toLower_iff.2 hgap
  | @after gap region cut hgap hregion _ ih =>
    change ((cut.map Char.toLower).after (gap.map Char.toLower) (region.map Char.toLower)).Leftmost tag
    refine .after ?_ ?_ ih
    · rw [Cut.text_map, ← List.map_append, ← List.map_append, List.length_map]
      exact noRegionBefore_map_toLower_iff.2 hgap
    · rw [Cut.text_map, ← List.map_append, List.length_map]
      exact regionAt_map_toLower_iff.2 hregion

theorem pass_map_toLower : pass tag (cs.map Char.toLower) = (pass tag cs).map Char.toLower := by
  obtain ⟨cut, hcut⟩ := exists_isCut tag cs
  rw [pass_eq_kept hcut.map_toLower, Cut.kept_map, pass_eq_kept hcut]

theorem removed_map_toLower : removed tag (cs.map Char.toLower) = removed tag cs := by
  obtain ⟨cut, hcut⟩ := exists_isCut tag cs
  ext i
  rw [mem_removed_iff hcut.map_toLower, mem_removed_iff hcut, Cut.marks_map]

end

/-- **Stripping does not depend on letter case.** Capitals may be made small before or after it; and from two
texts that differ in the case of their letters only, each pass, which leaves out the places that it removes,
removes the same places. -/
theorem strip_toLower :
    (∀ tag cs, LeavesOut (removed tag cs) cs (pass tag cs)) ∧
      (∀ markup : String, (strip markup).toLower = strip markup.toLower) ∧
      ∀ markup markup' : String, markup.toLower = markup'.toLower →
        removed .style markup.toList = removed .style markup'.toList ∧
          removed .script (pass .style markup.toList) = removed .script (pass .style markup'.toList) := by
  refine ⟨leavesOut_pass, ?_, ?_⟩
  · intro markup
    apply String.toList_injective
    simp only [strip, toList_toLower, String.toList_ofList, pass_map_toLower]
  · intro markup markup' hsame
    have htexts : markup.toList.map Char.toLower = markup'.toList.map Char.toLower := by
      rw [← toList_toLower, hsame, toList_toLower]
    constructor
    · rw [← removed_map_toLower, htexts, removed_map_toLower]
    · rw [← removed_map_toLower, ← pass_map_toLower, htexts, pass_map_toLower, removed_map_toLower]

theorem strip_toLower_mixedTags :
    removed .style "<STYLE >a</Style>B<sCript/>".toList = removed .style "<style >A</sTYLE>b<SCRIPT/>".toList ∧
      removed .script (pass .style "<STYLE >a</Style>B<sCript/>".toList) =
        removed .script (pass .style "<style >A</sTYLE>b<SCRIPT/>".toList) := by
  refine strip_toLower.2.2 "<STYLE >a</Style>B<sCript/>" "<style >A</sTYLE>b<SCRIPT/>" ?_
  apply String.toList_injective
  rw [toList_toLower, toList_toLower]
  decide

end TemplateCode.Markup
