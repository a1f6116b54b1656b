import TemplateCode.Proofs.Regions
import Mathlib.Data.Nat.Find

/-!
# What is left of markup

A text is cut into regions and the gaps between them. A region starts at the first place where one can
start, counting from the end of the region before, so there is one way only to cut a text.

* `Cut`: a text in pieces, `Cut.Leftmost`: the regions in it are found from left to right.
* `existsUnique_isCut`: every text is cut in exactly one way.
* `pass_eq_kept`: a pass leaves the gaps.
* `strip_isCut`: stripping is a cut for styles and then a cut for scripts.
-/

namespace TemplateCode.Markup

/-- No region starts at any of the first `n` places of a text. -/
def NoRegionBefore (tag : Tag) (cs : List Char) (n : Nat) : Prop :=
  ∀ i < n, ∀ stop, ¬RegionAt tag (cs.drop i) stop

/-- A text in pieces: regions, each with the gap before it, and the gap after the last one. -/
@[ext]
structure Cut where
  pieces : List (List Char × List Char)
  last : List Char

namespace Cut

/-- All pieces, one after the other. -/
def text (cut : Cut) : List Char :=
  cut.pieces.flatMap (fun (gap, region) => gap ++ region) ++ cut.last

/-- The gaps, one after the other. -/
def kept (cut : Cut) : List Char :=
  cut.pieces.flatMap Prod.fst ++ cut.last

/-- A cut with a gap and a region before it. -/
def after (gap region : List Char) (cut : Cut) : Cut :=
  ⟨(gap, region) :: cut.pieces, cut.last⟩

theorem text_after (gap region : List Char) (cut : Cut) :
    (cut.after gap region).text = gap ++ (region ++ cut.text) := by
  simp [text, after]

theorem kept_after (gap region : List Char) (cut : Cut) :
    (cut.after gap region).kept = gap ++ cut.kept := by
  simp [kept, after]

/-- Every region is one that starts where it does, and no region starts in a gap. -/
inductive Leftmost (tag : Tag) : Cut → Prop
  | last {gap : List Char} (hgap : NoRegionBefore tag gap gap.length) : Leftmost tag ⟨[], gap⟩
  | after {gap region : List Char} {cut : Cut}
    (hgap : NoRegionBefore tag (gap ++ (region ++ cut.text)) gap.length)
    (hregion : RegionAt tag (region ++ cut.text) region.length) (h : Leftmost tag cut) :
    Leftmost tag (cut.after gap region)

end Cut

/-- A text is cut as its regions are found from left to right. -/
structure IsCut (tag : Tag) (cs : List Char) (cut : Cut) : Prop where
  text_eq : cut.text = cs
  leftmost : cut.Leftmost tag

/-! ## One way to cut a text -/

section

variable {tag : Tag} {cs : List Char}

/-- There is one first region. -/
theorem firstRegion_unique {n n' stop stop' : Nat} (hn : NoRegionBefore tag cs n)
    (hstop : RegionAt tag (cs.drop n) stop) (hn' : NoRegionBefore tag cs n')
    (hstop' : RegionAt tag (cs.drop n') stop') : n = n' ∧ stop = stop' := by
  have hle : n' ≤ n := by
    by_contra hlt
    exact hn' n (by omega) stop hstop
  have hge : n ≤ n' := by
    by_contra hlt
    exact hn n' (by omega) stop' hstop'
  obtain rfl : n = n' := Nat.le_antisymm hge hle
  exact ⟨rfl, hstop.unique hstop'⟩

theorem not_regionAt_of_noRegionBefore {gap rest : List Char} {n : Nat}
    (h : NoRegionBefore tag (gap ++ rest) (gap ++ rest).length) : ¬RegionAt tag rest n := by
  intro hregion
  have hpos := hregion.pos
  have hlength := hregion.le_length
  have hplace : gap.length < (gap ++ rest).length := by
    rw [List.length_append]
    omega
  exact h gap.length hplace n (by rwa [List.drop_left])

theorem Cut.Leftmost.unique {cut other : Cut} (h : cut.Leftmost tag) (hother : other.Leftmost tag)
    (htext : cut.text = other.text) : cut = other := by
  induction h generalizing other with
  | @last gap hgap =>
    cases hother with
    | @last gap' hgap' =>
      obtain rfl : gap = gap' := htext
      rfl
    | @after gap' region' cut' _ hregion' _ =>
      obtain rfl : gap = gap' ++ (region' ++ cut'.text) := htext.trans (text_after _ _ _)
      exact absurd hregion' (not_regionAt_of_noRegionBefore hgap)
  | @after gap region cut hgap hregion _ ih =>
    cases hother with
    | @last gap' hgap' =>
      obtain rfl : gap ++ (region ++ cut.text) = gap' := (text_after _ _ _).symm.trans htext
      exact absurd hregion (not_regionAt_of_noRegionBefore hgap')
    | @after gap' region' cut' hgap' hregion' h' =>
      rw [text_after, text_after] at htext
      have hfirst : RegionAt tag ((gap ++ (region ++ cut.text)).drop gap.length) region.length := by
        rwa [List.drop_left]
      have hfirst' : RegionAt tag ((gap ++ (region ++ cut.text)).drop gap'.length) region'.length := by
        rwa [htext, List.drop_left]
      obtain ⟨hgaps, hregions⟩ := firstRegion_unique hgap hfirst (htext ▸ hgap') hfirst'
      obtain ⟨rfl, hafter⟩ := List.append_inj htext hgaps
      obtain ⟨rfl, hrest⟩ := List.append_inj hafter hregions
      rw [ih h' hrest]

/-- A text with a region has a first one. -/
theorem exists_firstRegion (h : ∃ i stop, RegionAt tag (cs.drop i) stop) :
    ∃ n stop, NoRegionBefore tag cs n ∧ RegionAt tag (cs.drop n) stop := by
  classical
  obtain ⟨stop, hstop⟩ := Nat.find_spec h
  exact ⟨Nat.find h, stop, fun i hi stop' hstop' => Nat.find_min h hi ⟨stop', hstop'⟩, hstop⟩

theorem exists_isCut (tag : Tag) (cs : List Char) : ∃ cut, IsCut tag cs cut := by
  -- What comes after the first region is shorter.
  induction hlength : cs.length using Nat.strong_induction_on generalizing cs with
  | _ length ih =>
    by_cases hany : ∃ i stop, RegionAt tag (cs.drop i) stop
    · obtain ⟨n, stop, hgap, hregion⟩ := exists_firstRegion hany
      have hpos := hregion.pos
      have hle := hregion.le_length
      rw [List.length_drop] at hle
      obtain ⟨cut, htext, hcut⟩ := ih ((cs.drop n).drop stop).length
        (by rw [List.length_drop, List.length_drop]; omega) ((cs.drop n).drop stop) rfl
      have hrest : (cs.drop n).take stop ++ cut.text = cs.drop n := by
        rw [htext, List.take_append_drop]
      refine ⟨cut.after (cs.take n) ((cs.drop n).take stop), ?_, .after ?_ ?_ hcut⟩
      · rw [Cut.text_after, hrest, List.take_append_drop]
      · rw [hrest, List.take_append_drop, List.length_take, Nat.min_eq_left (by omega)]
        exact hgap
      · rw [hrest, List.length_take, List.length_drop, Nat.min_eq_left hle]
        exact hregion
    · refine ⟨⟨[], cs⟩, rfl, .last ?_⟩
      intro i _ stop hstop
      exact hany ⟨i, stop, hstop⟩

/-- **A text is cut in exactly one way.** -/
theorem existsUnique_isCut (tag : Tag) (cs : List Char) : ∃! cut, IsCut tag cs cut := by
  obtain ⟨cut, hcut⟩ := exists_isCut tag cs
  refine ⟨cut, hcut, fun other hother => ?_⟩
  exact hother.leftmost.unique hcut.leftmost (hother.text_eq.trans hcut.text_eq.symm)

end

/-! ## What a pass leaves -/

section

variable {tag : Tag} {cs : List Char}

/-- Characters of a region that has begun are dropped. -/
theorem dropRegions_outlooks (tag : Tag) (pending : Nat) (cs : List Char) :
    dropRegions tag pending cs (outlooks tag cs) = pass tag (cs.drop pending) := by
  induction cs generalizing pending with
  | nil => simp [dropRegions, pass]
  | cons c cs ih =>
    cases pending with
    | zero => rfl
    | succ left =>
      rw [dropRegions, outlooks_cons, List.tail_cons, ih, List.drop_succ_cons]

theorem pass_of_regionAt {n : Nat} (h : RegionAt tag cs n) : pass tag cs = pass tag (cs.drop n) := by
  have hfound := regionLength?_eq_some_iff.2 h
  cases cs with
  | nil => rw [List.drop_nil]
  | cons c cs =>
    obtain ⟨m, rfl⟩ := Nat.exists_eq_add_of_lt h.pos
    rw [pass, dropRegions, hfound, outlooks_cons, List.tail_cons, Nat.zero_add, List.drop_succ_cons,
      ← dropRegions_outlooks]
    rfl

theorem pass_cons_of_not_regionAt {c : Char} (h : ∀ n, ¬RegionAt tag (c :: cs) n) :
    pass tag (c :: cs) = c :: pass tag cs := by
  have hnone : regionLength? tag (c :: cs) (outlooks tag (c :: cs)) = none :=
    Option.eq_none_iff_forall_ne_some.2 fun n hn => h n (regionLength?_eq_some_iff.1 hn)
  rw [pass, dropRegions, hnone, outlooks_cons, List.tail_cons]
  rfl

theorem pass_append {gap rest : List Char} (h : NoRegionBefore tag (gap ++ rest) gap.length) :
    pass tag (gap ++ rest) = gap ++ pass tag rest := by
  induction gap with
  | nil => rfl
  | cons c gap ih =>
    have hhead : ∀ n, ¬RegionAt tag (c :: (gap ++ rest)) n := h 0 (Nat.zero_lt_succ _)
    have htail : NoRegionBefore tag (gap ++ rest) gap.length := fun i hi =>
      h (i + 1) (Nat.succ_lt_succ hi)
    rw [List.cons_append, pass_cons_of_not_regionAt hhead, ih htail, List.cons_append]

theorem pass_eq_self (h : NoRegionBefore tag cs cs.length) : pass tag cs = cs := by
  have hgap := @pass_append tag cs [] (by simpa using h)
  simpa [pass, dropRegions] using hgap

/-- **A pass leaves the gaps** of a text. -/
theorem pass_eq_kept {cut : Cut} (h : IsCut tag cs cut) : pass tag cs = cut.kept := by
  obtain ⟨rfl, hcut⟩ := h
  induction hcut with
  | @last gap hgap => exact pass_eq_self hgap
  | @after gap region cut hgap hregion _ ih =>
    rw [Cut.text_after, pass_append hgap, pass_of_regionAt hregion, List.drop_left, ih, Cut.kept_after]

end

/-- **Stripping is one cut after another.** For either tag, every text is cut in exactly one way into
regions and gaps, where no region starts in a gap; and a markup text is stripped by keeping the gaps of its
cut for styles, and of those the gaps of their cut for scripts. -/
theorem strip_isCut :
    (∀ (tag : Tag) (cs : List Char), ∃! cut, IsCut tag cs cut) ∧
      ∀ markup : String, ∃ styles scripts : Cut,
        IsCut .style markup.toList styles ∧ IsCut .script styles.kept scripts ∧
          strip markup = String.ofList scripts.kept := by
  refine ⟨existsUnique_isCut, fun markup => ?_⟩
  obtain ⟨styles, hstyles⟩ := exists_isCut .style markup.toList
  obtain ⟨scripts, hscripts⟩ := exists_isCut .script styles.kept
  refine ⟨styles, scripts, hstyles, hscripts, ?_⟩
  rw [strip, pass_eq_kept hstyles, pass_eq_kept hscripts]

-- A `>` after which no style is closed ends nothing, and the comment goes on through its own end.
example : strip "a<ſTYLE\u2003x>b/>c<!-->d-->e<script>f</SCRIPT >g" = "ace<script>f</SCRIPT >g" := by
  decide +kernel

end TemplateCode.Markup
