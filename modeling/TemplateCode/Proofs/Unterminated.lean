import TemplateCode.Proofs.Stripping
import Mathlib.Data.List.Infix

/-!
# Elements that are not closed

An element is opened, and nowhere in the text after it is it closed. It is left in place, unless white space
follows its tag: then any `/>` in that text closes it, however far away.

* `Plain`: a text in which no region starts.
* `Unclosed`: an element that is opened and not closed.
* `Unclosed.exists_of_endsAt`: such an element can only end with a `/>` in the text after it.
* `strip_unclosed`: when such an element is left in place, and what is left otherwise.
-/

namespace TemplateCode.Markup

/-! ## Texts without regions -/

/-- A text in which no region starts: it has no comment in it, and no tag. -/
structure Plain (cs : List Char) : Prop where
  comment : ∀ i, ¬['<', '!', '-', '-'] <+: cs.drop i
  opens : ∀ (tag : Tag) (i : Nat), ¬tag.Opens (cs.drop i)

section

variable {tag : Tag} {cs : List Char} {stop : Nat}

theorem RegionAt.begins (h : RegionAt tag cs stop) : ['<', '!', '-', '-'] <+: cs ∨ tag.Opens cs := by
  cases h with
  | comment h => exact Or.inl h
  | bare h => exact Or.inr h
  | spaced h => exact Or.inr h

theorem Plain.drop (h : Plain cs) (n : Nat) : Plain (cs.drop n) := by
  constructor
  · intro i
    rw [List.drop_drop]
    exact h.comment (n + i)
  · intro tag i
    rw [List.drop_drop]
    exact h.opens tag (n + i)

theorem Plain.not_regionAt (h : Plain cs) (i : Nat) : ¬RegionAt tag (cs.drop i) stop := by
  intro hregion
  rcases hregion.begins with hcomment | hopens
  · exact h.comment i hcomment
  · exact h.opens tag i hopens

theorem Plain.pass_eq (h : Plain cs) : pass tag cs = cs :=
  pass_eq_self fun i _ _ => h.not_regionAt i

/-- A place where a `<` stands is not in a text without any. -/
theorem length_le_of_not_mem {gap rest rest' : List Char} {i : Nat} (h : '<' ∉ gap)
    (hdrop : (gap ++ rest).drop i = '<' :: rest') : gap.length ≤ i := by
  by_contra hlt
  have hhead : gap[i]? = some '<' := by
    rw [← List.getElem?_append_left (Nat.lt_of_not_le hlt), ← Nat.add_zero i, ← List.getElem?_drop, hdrop]
    rfl
  exact h (List.mem_of_getElem? hhead)

theorem drop_append_of_not_mem {gap rest rest' : List Char} {i : Nat} (h : '<' ∉ gap)
    (hdrop : (gap ++ rest).drop i = '<' :: rest') : (gap ++ rest).drop i = rest.drop (i - gap.length) := by
  rw [List.drop_append, List.drop_of_length_le (length_le_of_not_mem h hdrop), List.nil_append]

theorem Plain.append {gap : List Char} (hgap : '<' ∉ gap) (h : Plain cs) : Plain (gap ++ cs) := by
  constructor
  · rintro i hcomment
    have ⟨rest, hrest⟩ := hcomment
    rw [drop_append_of_not_mem hgap hrest.symm] at hcomment
    exact h.comment _ hcomment
  · rintro tag i hopens
    have ⟨name, rest, _, hrest⟩ := hopens
    rw [drop_append_of_not_mem hgap hrest] at hopens
    exact h.opens tag _ hopens

end

/-! ## Tags -/

namespace Tag

variable {tag tag' : Tag} {name cs : List Char}

theorem opens_iff :
    tag.Opens cs ↔ cs.head? = some '<' ∧ (after? isLetter tag.letters cs.tail).isSome = true := by
  simp only [Option.isSome_iff_exists, after?_letters_eq_some_iff]
  constructor
  · rintro ⟨name, rest, hname, rfl⟩
    exact ⟨rfl, rest, name, hname, rfl⟩
  · rintro ⟨hhead, rest, name, hname, htail⟩
    obtain ⟨tail, rfl⟩ := List.head?_eq_some_iff.1 hhead
    exact ⟨name, rest, hname, congrArg _ htail⟩

theorem closes_iff : tag.Closes cs ↔ (closing? tag cs).isSome = true := by
  simp only [Option.isSome_iff_exists, closing?_eq_some_iff, exists_and_left, exists_eq, and_true]

instance (tag : Tag) (cs : List Char) : Decidable (tag.Opens cs) :=
  decidable_of_iff _ opens_iff.symm

instance (tag : Tag) (cs : List Char) : Decidable (tag.Closes cs) :=
  decidable_of_iff _ closes_iff.symm

instance (tag : Tag) (name : List Char) : Decidable (tag.Spelled name) :=
  inferInstanceAs (Decidable (List.Forall₂ _ _ _))

theorem Spelled.standsFor (h : tag.Spelled name) {i : Nat} {letter c : Char}
    (hletter : tag.letters[i]? = some letter) (hc : name[i]? = some c) : StandsFor letter c := by
  obtain ⟨hi, rfl⟩ := List.getElem?_eq_some_iff.1 hletter
  obtain ⟨hi', rfl⟩ := List.getElem?_eq_some_iff.1 hc
  exact (List.forall₂_iff_get.1 h).2 i hi hi'

theorem Spelled.not_mem (h : tag.Spelled name) : '<' ∉ name := by
  have hall : tag.letters.all (fun letter => !decide (StandsFor letter '<')) = true := by
    cases tag <;> decide
  intro hmem
  obtain ⟨i, hi⟩ := List.mem_iff_getElem?.1 hmem
  have hlt : i < tag.letters.length := h.length_eq ▸ (List.getElem?_eq_some_iff.1 hi).1
  have hstands := h.standsFor (List.getElem?_eq_getElem hlt) hi
  have hnot := List.all_eq_true.1 hall _ (List.getElem_mem hlt)
  rw [decide_eq_true hstands] at hnot
  cases hnot

theorem Opens.exists_standsFor (h : tag.Opens cs) {i : Nat} {letter : Char}
    (hletter : tag.letters[i]? = some letter) : ∃ c, cs[i + 1]? = some c ∧ StandsFor letter c := by
  obtain ⟨name, rest, hname, rfl⟩ := h
  have hlt : i < name.length := by
    rw [hname.length_eq]
    exact (List.getElem?_eq_some_iff.1 hletter).1
  have hc : name[i]? = some name[i] := List.getElem?_eq_getElem hlt
  refine ⟨name[i], ?_, hname.standsFor hletter hc⟩
  rw [List.getElem?_cons_succ, List.getElem?_append_left hlt, hc]

/-- The second letters of the tags differ. -/
theorem Opens.not_script (h : Tag.style.Opens cs) : ¬Tag.script.Opens cs := by
  intro h'
  obtain ⟨c, hc, hstands⟩ := h.exists_standsFor (rfl : Tag.style.letters[1]? = some 't')
  obtain ⟨c', hc', hstands'⟩ := h'.exists_standsFor (rfl : Tag.script.letters[1]? = some 'c')
  obtain rfl : c = c' := Option.some.inj (hc.symm.trans hc')
  rcases hstands with rfl | rfl | ⟨hs, -⟩
  · exact absurd hstands' (by decide)
  · exact absurd hstands' (by decide)
  · exact absurd hs (by decide)

/-- A text begins with one tag at most. -/
theorem Opens.unique (h : tag.Opens cs) (h' : tag'.Opens cs) : tag = tag' := by
  cases tag with
  | style =>
    cases tag' with
    | style => rfl
    | script => exact absurd h' h.not_script
  | script =>
    cases tag' with
    | style => exact absurd h h'.not_script
    | script => rfl

end Tag

/-! ## Elements that are not closed -/

/-- The text of an element: its tag, the attributes, and what comes after. -/
def element (name attributes body : List Char) : List Char :=
  '<' :: (name ++ (attributes ++ '>' :: body))

/-- An element that is opened and not closed. Its attributes are set off by white space, and neither close
the tag nor the element; in the text after it no region starts, and the element is not closed. -/
@[mk_iff]
structure Unclosed (tag : Tag) (name attributes body : List Char) : Prop where
  spelled : tag.Spelled name
  blank : attributes.head?.all isBlank = true
  opening : '<' ∉ attributes
  closing : '>' ∉ attributes
  slash : attributes.getLast? ≠ some '/'
  plain : Plain body
  closes : ∀ i, ¬tag.Closes (body.drop i)

theorem forall_drop_iff {P : List Char → Prop} {cs : List Char} :
    (∀ i, P (cs.drop i)) ↔ ∀ rest ∈ cs.tails, P rest := by
  constructor
  · intro h rest hrest
    obtain ⟨read, rfl⟩ := (List.mem_tails _ _).1 hrest
    simpa using h read.length
  · intro h i
    exact h _ ((List.mem_tails _ _).2 (List.drop_suffix i cs))

theorem plain_iff {cs : List Char} :
    Plain cs ↔ ∀ rest ∈ cs.tails,
      ¬['<', '!', '-', '-'] <+: rest ∧ ∀ tag ∈ [Tag.style, Tag.script], ¬tag.Opens rest := by
  rw [← forall_drop_iff]
  constructor
  · rintro ⟨hcomment, hopens⟩ i
    exact ⟨hcomment i, fun tag _ => hopens tag i⟩
  · intro h
    refine ⟨fun i => (h i).1, fun tag i => (h i).2 tag ?_⟩
    cases tag <;> decide

instance (cs : List Char) : Decidable (Plain cs) :=
  decidable_of_iff _ plain_iff.symm

instance (tag : Tag) (name attributes body : List Char) : Decidable (Unclosed tag name attributes body) :=
  haveI : Decidable (∀ i, ¬tag.Closes (body.drop i)) :=
    decidable_of_iff _ (forall_drop_iff (P := fun rest => ¬tag.Closes rest)).symm
  decidable_of_iff _ (unclosed_iff tag name attributes body).symm

/-- A `/>` that comes after the attributes is in the text after the tag. -/
theorem length_lt_of_selfClosing {attributes body : List Char} {i : Nat} (hclosing : '>' ∉ attributes)
    (hslash : attributes.getLast? ≠ some '/')
    (h : ['/', '>'] <+: (attributes ++ '>' :: body).drop i) : attributes.length < i := by
  obtain ⟨rest, hrest⟩ := h
  have hfirst : (attributes ++ '>' :: body)[i]? = some '/' := by
    rw [← Nat.add_zero i, ← List.getElem?_drop, ← hrest]
    rfl
  have hsecond : (attributes ++ '>' :: body)[i + 1]? = some '>' := by
    rw [← List.getElem?_drop, ← hrest]
    rfl
  rcases Nat.lt_trichotomy i attributes.length with hlt | rfl | hlt
  · rw [List.getElem?_append_left hlt] at hfirst
    rcases Nat.lt_or_eq_of_le (Nat.succ_le_of_lt hlt) with hlt' | heq
    · rw [List.getElem?_append_left hlt'] at hsecond
      exact absurd (List.mem_of_getElem? hsecond) hclosing
    · -- the slash is the last of the attributes
      rw [List.getLast?_eq_getElem?, ← heq] at hslash
      exact absurd hfirst hslash
  · rw [List.getElem?_append_right le_rfl, Nat.sub_self] at hfirst
    cases hfirst
  · exact hlt

/-- The first `/>` of a text. -/
theorem exists_first_selfClosing {body : List Char} (h : ['/', '>'] <:+: body) :
    ∃ before after, body = before ++ '/' :: '>' :: after ∧ ¬['/', '>'] <:+: before := by
  obtain ⟨before, after, rfl⟩ := h
  -- one that comes before it has a shorter text before it
  induction hlength : before.length using Nat.strong_induction_on generalizing before after with
  | _ length ih =>
    by_cases hbefore : ['/', '>'] <:+: before
    · obtain ⟨before', between, rfl⟩ := hbefore
      have hshorter : before'.length < length := by
        simp only [List.length_append, List.length_cons] at hlength
        omega
      obtain ⟨first, rest, heq, hfirst⟩ := ih before'.length hshorter before'
        (between ++ ['/', '>'] ++ after) rfl
      exact ⟨first, rest, by simpa using heq, hfirst⟩
    · exact ⟨before, after, by simp, hbefore⟩

theorem length_le_of_selfClosing {before after : List Char} {i : Nat} (hbefore : ¬['/', '>'] <:+: before)
    (h : ['/', '>'] <+: (before ++ '/' :: '>' :: after).drop i) : before.length ≤ i := by
  by_contra hlt
  rw [List.drop_append_of_le_length (by omega)] at h
  cases hdrop : before.drop i with
  | nil =>
    have := List.drop_eq_nil_iff.1 hdrop
    omega
  | cons c rest =>
    rw [hdrop] at h
    cases rest with
    | nil =>
      -- the next character is the slash
      simp at h
    | cons c' rest =>
      refine hbefore ?_
      have hread : ['/', '>'] <+: before.drop i := by
        rw [hdrop]
        simpa [List.cons_prefix_cons] using h
      exact hread.isInfix.trans (List.drop_suffix i before).isInfix

theorem Tag.Spelled.drop_element {tag : Tag} {name : List Char} (h : tag.Spelled name)
    (attributes body : List Char) (k : Nat) :
    (element name attributes body).drop (tag.openLength + attributes.length + 1 + k) = body.drop k := by
  rw [Nat.add_assoc, Nat.add_assoc, ← List.drop_drop, element, h.drop_open, ← List.drop_drop,
    List.drop_left, Nat.add_comm 1 k, List.drop_succ_cons]

theorem element_eq (name attributes body : List Char) :
    element name attributes body = '<' :: ((name ++ (attributes ++ ['>'])) ++ body) := by
  simp [element]

namespace Unclosed

variable {tag tag' : Tag} {name attributes body : List Char} {j stop : Nat}

theorem not_mem (h : Unclosed tag name attributes body) : '<' ∉ name ++ (attributes ++ ['>']) := by
  simp [h.spelled.not_mem, h.opening]

theorem opens (h : Unclosed tag name attributes body) : tag.Opens (element name attributes body) :=
  ⟨name, _, h.spelled, rfl⟩

theorem pass_eq_self (h : Unclosed tag name attributes body)
    (hregion : ∀ stop, ¬RegionAt tag' (element name attributes body) stop) :
    pass tag' (element name attributes body) = element name attributes body := by
  rw [element_eq] at hregion ⊢
  rw [pass_cons_of_not_regionAt hregion, (h.plain.append h.not_mem).pass_eq]

theorem pass_of_ne (h : Unclosed tag name attributes body) (htag : tag' ≠ tag) :
    pass tag' (element name attributes body) = element name attributes body := by
  refine h.pass_eq_self fun stop hregion => ?_
  rcases hregion.begins with hcomment | hopens
  · exact h.opens.not_comment hcomment
  · exact htag (hopens.unique h.opens)

theorem not_closes (h : Unclosed tag name attributes body) (i : Nat) :
    ¬tag.Closes ((element name attributes body).drop i) := by
  intro hcloses
  have ⟨name', rest, _, hread⟩ := hcloses
  cases i with
  | zero =>
    -- a letter follows the `<`
    obtain ⟨c, name'', rfl, hc⟩ := h.spelled.exists_cons
    rw [List.drop_zero, element, List.cons_append, List.cons.injEq, List.cons.injEq] at hread
    rw [hread.2.1] at hc
    revert hc
    decide
  | succ i =>
    rw [element_eq, List.drop_succ_cons] at hread hcloses
    rw [drop_append_of_not_mem h.not_mem hread] at hcloses
    exact h.closes _ hcloses

/-- **An element that is not closed ends with a `/>`** in the text after it, if it ends. -/
theorem exists_of_endsAt (h : Unclosed tag name attributes body) (hj : tag.openLength ≤ j)
    (hend : EndsAt tag (element name attributes body) j stop) :
    ∃ k, j = tag.openLength + attributes.length + 1 + k ∧ ['/', '>'] <+: body.drop k := by
  cases hend with
  | closed _ hk => exact absurd hk.1.2 (h.not_closes _)
  | selfClosed hread =>
    obtain ⟨i, rfl⟩ := Nat.exists_eq_add_of_le hj
    have hafter := hread
    rw [← List.drop_drop, element, h.spelled.drop_open] at hafter
    obtain ⟨k, rfl⟩ := Nat.exists_eq_add_of_lt (length_lt_of_selfClosing h.closing h.slash hafter)
    have hplace : tag.openLength + (attributes.length + k + 1) =
        tag.openLength + attributes.length + 1 + k := by omega
    rw [hplace, h.spelled.drop_element] at hread
    exact ⟨k, hplace, hread⟩

/-- No region starts with an element that has no attributes, or after which there is no `/>`. -/
theorem not_regionAt (h : Unclosed tag name attributes body)
    (hnone : attributes = [] ∨ ¬['/', '>'] <:+: body) :
    ¬RegionAt tag (element name attributes body) stop := by
  intro hregion
  cases hregion with
  | comment hcomment => exact h.opens.not_comment hcomment
  | bare _ hstop =>
    obtain ⟨k, hk, -⟩ := h.exists_of_endsAt le_rfl hstop
    omega
  | @spaced c j _ _ hc hblank hj hstop =>
    rcases hnone with rfl | hbody
    · -- the tag ends where white space should be
      rw [element, h.spelled.getElem?_open] at hc
      cases hc
      revert hblank
      decide
    · have hle : tag.openLength ≤ j := Nat.le_of_succ_le hj.1.1
      obtain ⟨k, -, hread⟩ := h.exists_of_endsAt hle hstop
      exact hbody (hread.isInfix.trans (List.drop_suffix k body).isInfix)

/-- If an element has attributes, the region that starts with it goes through to the first `/>` in the text
after it. -/
theorem regionAt {before after : List Char} (h : Unclosed tag name attributes (before ++ '/' :: '>' :: after))
    (hne : attributes ≠ []) (hbefore : ¬['/', '>'] <:+: before) :
    RegionAt tag (element name attributes (before ++ '/' :: '>' :: after))
      (tag.openLength + attributes.length + 1 + before.length + 2) := by
  have hend : EndsAt tag (element name attributes (before ++ '/' :: '>' :: after))
      (tag.openLength + attributes.length + 1 + before.length)
      (tag.openLength + attributes.length + 1 + before.length + 2) := by
    refine .selfClosed ?_
    rw [h.spelled.drop_element, List.drop_left]
    exact List.prefix_append ['/', '>'] after
  obtain ⟨c, rest, rfl⟩ := List.exists_cons_of_ne_nil hne
  have hc : (element name (c :: rest) (before ++ '/' :: '>' :: after))[tag.openLength]? = some c := by
    rw [element, h.spelled.getElem?_open]
    rfl
  refine .spaced h.opens hc h.blank ⟨⟨by omega, _, hend⟩, ?_⟩ hend
  rintro i ⟨hi, stop, hstop⟩
  obtain ⟨k, rfl, hread⟩ := h.exists_of_endsAt (Nat.le_of_succ_le hi) hstop
  have := length_le_of_selfClosing hbefore hread
  omega

/-- What the pass for its tag makes of an element is what stripping makes of it. -/
theorem strip_eq {rest : List Char} (h : Unclosed tag name attributes body)
    (hpass : pass tag (element name attributes body) = rest)
    (hrest : rest = element name attributes body ∨ Plain rest) :
    strip (String.ofList (element name attributes body)) = String.ofList rest := by
  rw [strip, String.toList_ofList]
  cases tag with
  | style =>
    rw [hpass]
    rcases hrest with rfl | hplain
    · rw [h.pass_of_ne (by decide : Tag.script ≠ .style)]
    · rw [hplain.pass_eq]
  | script => rw [h.pass_of_ne (by decide : Tag.style ≠ .script), hpass]

theorem strip_eq_self (h : Unclosed tag name attributes body)
    (hnone : attributes = [] ∨ ¬['/', '>'] <:+: body) :
    strip (String.ofList (element name attributes body)) = String.ofList (element name attributes body) :=
  h.strip_eq (h.pass_eq_self fun _ => h.not_regionAt hnone) (Or.inl rfl)

/-- **An element with attributes is cut off** through to the first `/>` in the text after it. -/
theorem strip_eq_after {before after : List Char}
    (h : Unclosed tag name attributes (before ++ '/' :: '>' :: after)) (hne : attributes ≠ [])
    (hbefore : ¬['/', '>'] <:+: before) :
    strip (String.ofList (element name attributes (before ++ '/' :: '>' :: after))) = String.ofList after := by
  have hdrop : (before ++ '/' :: '>' :: after).drop (before.length + 2) = after := by
    rw [← List.drop_drop, List.drop_left]
    rfl
  have hplain : Plain after := hdrop ▸ h.plain.drop (before.length + 2)
  refine h.strip_eq ?_ (Or.inr hplain)
  rw [pass_of_regionAt (h.regionAt hne hbefore), Nat.add_assoc _ before.length, h.spelled.drop_element,
    hdrop, hplain.pass_eq]

end Unclosed

theorem ofList_element (name attributes body : String) :
    String.ofList (element name.toList attributes.toList body.toList) =
      "<" ++ name ++ attributes ++ ">" ++ body := by
  apply String.toList_injective
  simp [element]

/-- **An element that is not closed is left in place** exactly if it has no attributes, or if there is no
`/>` in the text after it. Otherwise all is cut off through to the first `/>`. -/
theorem strip_unclosed {tag : Tag} {name attributes body : String}
    (h : Unclosed tag name.toList attributes.toList body.toList) :
    (strip ("<" ++ name ++ attributes ++ ">" ++ body) = "<" ++ name ++ attributes ++ ">" ++ body ↔
      attributes = "" ∨ ¬['/', '>'] <:+: body.toList) ∧
    ∀ before after : String, attributes ≠ "" → body = before ++ "/>" ++ after →
      ¬['/', '>'] <:+: before.toList →
      strip ("<" ++ name ++ attributes ++ ">" ++ body) = after := by
  rw [← ofList_element, ← String.toList_eq_nil_iff]
  have hcut : ∀ before after : String, attributes.toList ≠ [] → body = before ++ "/>" ++ after →
      ¬['/', '>'] <:+: before.toList →
      strip (String.ofList (element name.toList attributes.toList body.toList)) = after := by
    rintro before after hne rfl hbefore
    have hbody : (before ++ "/>" ++ after).toList = before.toList ++ '/' :: '>' :: after.toList := by simp
    rw [hbody] at h ⊢
    rw [h.strip_eq_after hne hbefore, String.ofList_toList]
  refine ⟨⟨fun hsame => ?_, h.strip_eq_self⟩, fun before after hne => hcut before after ?_⟩
  · by_contra hnot
    rw [not_or, not_not] at hnot
    obtain ⟨before, after, hbody, hbefore⟩ := exists_first_selfClosing hnot.2
    have hbody' : body = String.ofList before ++ "/>" ++ String.ofList after := by
      apply String.toList_injective
      simpa using hbody
    have hafter := hcut (String.ofList before) (String.ofList after) hnot.1 hbody' (by simpa using hbefore)
    -- what is left is shorter
    have hlength := congrArg String.length (hsame.symm.trans hafter)
    rw [ofList_element, hbody'] at hlength
    have hsign : "/>".length = 2 := rfl
    simp only [String.length_append, hsign] at hlength
    omega
  · rwa [Ne, String.toList_eq_nil_iff]

theorem strip_unclosed_script :
    strip ("<" ++ "Script" ++ "" ++ ">" ++ "a < b/>c") = "<Script>a < b/>c" ∧
      strip ("<" ++ "script" ++ " src=x" ++ ">" ++ "if (a < b) <br/>c/>d") = "c/>d" := by
  have hbare : Unclosed .script "Script".toList "".toList "a < b/>c".toList := by decide +kernel
  have hspaced : Unclosed .script "script".toList " src=x".toList "if (a < b) <br/>c/>d".toList := by
    decide +kernel
  refine ⟨(strip_unclosed hbare).1.2 (Or.inl rfl), ?_⟩
  exact (strip_unclosed hspaced).2 "if (a < b) <br" "c/>d" (by decide) (by decide) (by decide +kernel)

/-- A style that is nowhere closed is not left in place. -/
theorem strip_unclosed_ne :
    Unclosed .style "style".toList " ".toList "a/>b".toList ∧
      strip ("<" ++ "style" ++ " " ++ ">" ++ "a/>b") = "b" ∧
      strip ("<" ++ "style" ++ " " ++ ">" ++ "a/>b") ≠ "<" ++ "style" ++ " " ++ ">" ++ "a/>b" := by
  decide +kernel

end TemplateCode.Markup
