import TemplateCode.Proofs.Stripping

/-!
# Stripping by patterns

What is cut out of markup can be described by two patterns, one for each tag. That for styles is

    <!--.*?-->|<style(\s.*?)?(?:>.*?</style>|/>)

where letters match in either case and a point matches every character. Of the matches that start at a place,
the one that is preferred counts: the left alternative before the right one, something optional before
nothing, and as few characters as possible for `.*?`. Of all places, the leftmost counts.

* `Pattern.rests`: the matches at the head of a text in their order, `Pattern.remove`: a text without the
  leftmost matches.
* `Tag.pattern`: the pattern of a tag.
* `first?_pattern`: its matches are the regions of the tag.
* `strip_eq_remove`: **stripping removes the matches of the two patterns**, one pattern after the other.
-/

namespace TemplateCode.Markup

/-- What a text may be searched for. -/
inductive Pattern where
  /-- A character of some kind. -/
  | char (accepts : Char → Bool)
  | empty
  | andThen (first second : Pattern)
  /-- The first pattern, or else the second. -/
  | orElse (first second : Pattern)
  /-- Any characters, as few as possible. -/
  | gap

namespace Pattern

/-- What may be left of a text after a match at its head, in order of preference. -/
def rests : Pattern → List Char → List (List Char)
  | char _, [] => []
  | char accepts, c :: cs => if accepts c then [cs] else []
  | empty, cs => [cs]
  | andThen first second, cs => (first.rests cs).flatMap second.rests
  | orElse first second, cs => first.rests cs ++ second.rests cs
  | gap, cs => cs.tails

/-- What is left of a text after the match at its head that is preferred. -/
def first? (pattern : Pattern) (cs : List Char) : Option (List Char) :=
  (pattern.rests cs).head?

/-- A text without the leftmost match, the leftmost one after that, and so on. A match that takes nothing
removes nothing. -/
def remove (pattern : Pattern) : List Char → List Char
  | [] => []
  | c :: cs =>
    match pattern.first? (c :: cs) with
    | some rest => if rest.length ≤ cs.length then remove pattern rest else c :: remove pattern cs
    | none => c :: remove pattern cs
termination_by cs => cs.length

/-- Patterns one after the other. -/
def series (patterns : List Pattern) : Pattern :=
  patterns.foldr andThen empty

/-- A pattern or nothing, preferably the pattern. -/
def optional (pattern : Pattern) : Pattern :=
  pattern.orElse empty

/-- Characters that match those of a word as `same` says. -/
def word (same : Char → Char → Bool) (letters : List Char) : Pattern :=
  series (letters.map fun letter => char (same letter))

/-- The characters of a text. -/
def exactly (text : String) : Pattern :=
  word (· == ·) text.toList

end Pattern

namespace Tag

open Pattern (exactly gap series)

/-- The letters of a tag in either case. -/
def name (tag : Tag) : Pattern :=
  Pattern.word (fun letter c => decide (StandsFor letter c)) tag.letters

/-- `</tag>`. -/
def closing (tag : Tag) : Pattern :=
  series [exactly "</", tag.name, exactly ">"]

/-- `>.*?</tag>|/>`. -/
def ending (tag : Tag) : Pattern :=
  .orElse (series [exactly ">", gap, tag.closing]) (exactly "/>")

/-- `<tag(\s.*?)?(?:>.*?</tag>|/>)`. -/
def elementPattern (tag : Tag) : Pattern :=
  series [exactly "<", tag.name, .optional (series [.char isBlank, gap]), tag.ending]

/-- `<!--.*?-->|<tag(\s.*?)?(?:>.*?</tag>|/>)`. -/
def pattern (tag : Tag) : Pattern :=
  .orElse (series [exactly "<!--", gap, exactly "-->"]) tag.elementPattern

end Tag

/-! ## Matches -/

namespace Pattern

theorem first?_andThen (first second : Pattern) (cs : List Char) :
    (first.andThen second).first? cs = (first.rests cs).findSome? second.first? :=
  List.head?_flatMap

theorem first?_orElse (first second : Pattern) (cs : List Char) :
    (first.orElse second).first? cs = (first.first? cs).or (second.first? cs) :=
  List.head?_append

/-- Nothing is chosen in a word, so there is one match or none. -/
theorem rests_word (same : Char → Char → Bool) (letters cs : List Char) :
    (word same letters).rests cs = (after? same letters cs).toList := by
  induction letters generalizing cs with
  | nil => rfl
  | cons letter letters ih =>
    have hcons : (word same (letter :: letters)).rests cs =
        ((char (same letter)).rests cs).flatMap (word same letters).rests := rfl
    rw [hcons]
    cases cs with
    | nil => rfl
    | cons c cs =>
      rw [rests, after?]
      split
      · rw [List.flatMap_singleton, ih]
      · rfl

theorem first?_word (same : Char → Char → Bool) (letters cs : List Char) :
    (word same letters).first? cs = after? same letters cs := by
  rw [first?, rests_word, Option.head?_toList]

theorem first?_word_andThen (same : Char → Char → Bool) (letters : List Char) (next : Pattern)
    (cs : List Char) :
    ((word same letters).andThen next).first? cs = (after? same letters cs).bind next.first? := by
  rw [first?_andThen, rests_word]
  cases after? same letters cs with
  | none => rfl
  | some rest => simp

theorem first?_series_singleton (pattern : Pattern) (cs : List Char) :
    (series [pattern]).first? cs = pattern.first? cs := by
  rw [first?, first?]
  exact congrArg List.head? (List.flatMap_singleton' _)

/-- What is searched for at one place after another is found where it matches first. -/
theorem findSome?_tails {find? : List Char → Option (List Char)} {match? : List Char → Option Nat}
    (h : ∀ cs, find? cs = (match? cs).map cs.drop) (cs : List Char) :
    cs.tails.findSome? find? = (lengthThrough? match? cs).map cs.drop := by
  induction cs with
  | nil => rw [List.tails, List.findSome?_singleton, h, lengthThrough?]
  | cons c cs ih =>
    rw [List.tails, List.findSome?_cons, h, lengthThrough?, ih]
    cases match? (c :: cs) with
    | some length => rfl
    | none =>
      rw [Option.map_none, Option.none_or, Option.map_map]
      rfl

/-- **As few characters as possible** come before the next pattern. -/
theorem first?_gap_andThen {next : Pattern} {match? : List Char → Option Nat}
    (h : ∀ cs, next.first? cs = (match? cs).map cs.drop) (cs : List Char) :
    (gap.andThen next).first? cs = (lengthThrough? match? cs).map cs.drop :=
  (first?_andThen gap next cs).trans (findSome?_tails h cs)

end Pattern

/-! ## The parts of a region -/

open Pattern

variable {tag : Tag}

theorem after?_eq_drop {same : Char → Char → Bool} {letters cs rest : List Char}
    (h : after? same letters cs = some rest) : rest = cs.drop letters.length := by
  obtain ⟨read, hread, rfl⟩ := after?_eq_some_iff.1 h
  rw [hread.length_eq, List.drop_left]

theorem first?_exactly (text : String) (cs : List Char) :
    (exactly text).first? cs =
      (if startsWith text.toList cs then some text.toList.length else none).map cs.drop := by
  rw [exactly, first?_word, startsWith]
  cases hafter : after? (· == ·) text.toList cs with
  | none => rfl
  | some rest => rw [after?_eq_drop hafter]; rfl

theorem first?_commentEnd (cs : List Char) :
    (series [exactly "-->"]).first? cs = (commentEnd? cs).map cs.drop := by
  rw [first?_series_singleton, first?_exactly]
  rfl

/-- The letters of a tag are matched as they are read. -/
theorem first?_name_andThen (next : Pattern) (cs : List Char) :
    (tag.name.andThen next).first? cs = (after? isLetter tag.letters cs).bind next.first? := by
  have hsame : after? (fun letter c => decide (StandsFor letter c)) tag.letters cs =
      after? isLetter tag.letters cs := by
    refine Option.ext fun rest => ?_
    rw [Tag.after?_letters_eq_some_iff, after?_eq_some_iff]
    simp only [decide_eq_true_eq]
    rfl
  rw [Tag.name, first?_word_andThen, hsame]

theorem first?_closing_eq_some_iff {cs rest : List Char} :
    tag.closing.first? cs = some rest ↔
      ∃ name, tag.Spelled name ∧ cs = '<' :: '/' :: (name ++ '>' :: rest) := by
  have hclosing : tag.closing.first? cs =
      (after? (· == ·) "</".toList cs).bind fun inner =>
        (after? isLetter tag.letters inner).bind (after? (· == ·) ">".toList) := by
    rw [Tag.closing, exactly, series, List.foldr_cons, first?_word_andThen]
    refine congrArg _ (funext fun inner => ?_)
    rw [List.foldr_cons, first?_name_andThen]
    refine congrArg _ (funext fun inner => ?_)
    rw [← first?_word]
    exact first?_series_singleton _ _
  simp only [hclosing, Option.bind_eq_some_iff, after?_beq_eq_some_iff, Tag.after?_letters_eq_some_iff]
  constructor
  · rintro ⟨_, rfl, _, ⟨name, hname, rfl⟩, rfl⟩
    exact ⟨name, hname, rfl⟩
  · rintro ⟨name, hname, rfl⟩
    exact ⟨_, rfl, _, ⟨name, hname, rfl⟩, rfl⟩

theorem first?_closing (cs : List Char) : tag.closing.first? cs = (closing? tag cs).map cs.drop := by
  refine Option.ext fun rest => ?_
  rw [first?_closing_eq_some_iff, Option.map_eq_some_iff]
  simp only [closing?_eq_some_iff]
  have hdrop : ∀ {name : List Char}, tag.Spelled name → ∀ rest,
      ('<' :: '/' :: (name ++ '>' :: rest)).drop tag.closeLength = rest := by
    intro name hname rest
    rw [Tag.closeLength, ← hname.length_eq]
    simp
  constructor
  · rintro ⟨name, hname, rfl⟩
    exact ⟨_, ⟨⟨name, rest, hname, rfl⟩, rfl⟩, hdrop hname rest⟩
  · rintro ⟨_, ⟨⟨name, rest', hname, rfl⟩, rfl⟩, rfl⟩
    exact ⟨name, hname, by rw [hdrop hname]⟩

/-- An end is matched where one is found. -/
theorem first?_ending (cs : List Char) : tag.ending.first? cs = (ending? tag cs).map cs.drop := by
  have hclosed : (series [exactly ">", gap, tag.closing]).first? cs =
      (after? (· == ·) ">".toList cs).bind fun inner =>
        (lengthThrough? (closing? tag) inner).map inner.drop := by
    rw [series, List.foldr_cons, exactly, first?_word_andThen]
    refine congrArg _ (funext fun inner => ?_)
    refine first?_gap_andThen (fun cs => ?_) inner
    exact (first?_series_singleton _ cs).trans (first?_closing cs)
  have hself : (exactly "/>").first? cs = after? (· == ·) "/>".toList cs := first?_word _ _ cs
  rw [Tag.ending, first?_orElse, hclosed, hself, ending?]
  unfold endingBefore?
  split
  · rfl
  · rename_i rest
    have hafter : after? (· == ·) ">".toList ('>' :: rest) = some rest := rfl
    have hother : after? (· == ·) "/>".toList ('>' :: rest) = none := rfl
    rw [hafter, hother, Option.bind_some, Option.or_none, List.tail_cons, Option.map_map]
    rfl
  · rename_i hself hclosed
    have hnone : ∀ text : String, (∀ rest, cs ≠ text.toList ++ rest) →
        after? (· == ·) text.toList cs = none := by
      intro text htext
      exact Option.eq_none_iff_forall_ne_some.2 fun rest h => htext rest (after?_beq_eq_some_iff.1 h)
    rw [hnone ">" hclosed, hnone "/>" hself]
    rfl

/-! ## Regions -/

variable {cs : List Char}

theorem first?_comment (cs : List Char) :
    (series [exactly "<!--", gap, exactly "-->"]).first? cs =
      (comment? cs (lookAhead (outlooks tag cs))).map cs.drop := by
  have hfound : (series [exactly "<!--", gap, exactly "-->"]).first? cs =
      (after? (· == ·) "<!--".toList cs).bind fun inner =>
        (lengthThrough? commentEnd? inner).map inner.drop := by
    rw [series, List.foldr_cons, exactly, first?_word_andThen]
    exact congrArg _ (funext fun inner => first?_gap_andThen first?_commentEnd inner)
  have hlook : (lookAhead (outlooks tag cs) 4).comment = lengthThrough? commentEnd? (cs.drop 4) := by
    rw [lookAhead_outlooks]
    rfl
  rw [hfound, comment?, hlook, startsWith]
  cases hafter : after? (· == ·) ['<', '!', '-', '-'] cs with
  | none =>
    have hnone : after? (· == ·) "<!--".toList cs = none := hafter
    rw [hnone]
    rfl
  | some inner =>
    have hsome : after? (· == ·) "<!--".toList cs = some inner := hafter
    obtain rfl := after?_eq_drop hafter
    rw [hsome, Option.bind_some, Option.isSome_some, if_pos rfl, Option.map_map]
    refine congrFun (congrArg Option.map (funext fun length => ?_)) _
    rw [List.drop_drop, Function.comp_apply, Nat.add_comm]
    rfl

/-- White space and what comes after it is preferred to nothing. -/
theorem rests_optional (c : Char) (rest : List Char) :
    (Pattern.optional (series [char isBlank, gap])).rests (c :: rest) =
      (if isBlank c then rest.tails else []) ++ [c :: rest] := by
  have hsplit : (Pattern.optional (series [char isBlank, gap])).rests (c :: rest) =
      ((char isBlank).rests (c :: rest)).flatMap (series [gap]).rests ++ [c :: rest] := rfl
  have hgap : (series [gap]).rests rest = rest.tails := List.flatMap_singleton' _
  rw [hsplit, rests]
  split
  · rw [List.flatMap_singleton, hgap]
  · rfl

/-- No end begins with white space. -/
theorem ending?_of_isBlank {c : Char} (hblank : isBlank c = true) (rest : List Char) :
    ending? tag (c :: rest) = none := by
  refine Option.eq_none_iff_forall_ne_some.2 fun n hn => ?_
  obtain ⟨d, hd, hdblank⟩ := (ending?_drop_eq_some_iff (j := 0).1 hn).exists_getElem?
  obtain rfl : c = d := Option.some.inj hd
  rw [hblank] at hdblank
  cases hdblank

/-- After the name of the tag comes white space with something after it, or nothing, and then the end. -/
theorem first?_elementPattern (cs : List Char) :
    tag.elementPattern.first? cs =
      (after? (· == ·) "<".toList cs).bind fun inner => (after? isLetter tag.letters inner).bind fun rest =>
        ((Pattern.optional (series [char isBlank, gap])).rests rest).findSome? tag.ending.first? := by
  rw [Tag.elementPattern, series, List.foldr_cons, exactly, first?_word_andThen]
  refine congrArg _ (funext fun inner => ?_)
  rw [List.foldr_cons, first?_name_andThen]
  refine congrArg _ (funext fun rest => ?_)
  rw [List.foldr_cons, first?_andThen]
  exact congrArg (fun find? => List.findSome? find? _) (funext (first?_series_singleton tag.ending))

theorem first?_element_of_spelled {name : List Char} {c : Char} {rest : List Char} (hname : tag.Spelled name)
    (hcs : cs = '<' :: (name ++ c :: rest)) :
    tag.elementPattern.first? cs = (element? tag cs (lookAhead (outlooks tag cs))).map cs.drop := by
  have hopen : cs.drop tag.openLength = c :: rest := by rw [hcs, hname.drop_open]
  have hblank : cs.drop (tag.openLength + 1) = rest := by rw [← List.drop_drop, hopen]; rfl
  have hafter : after? (· == ·) "<".toList cs = some (name ++ c :: rest) := after?_beq_eq_some_iff.2 hcs
  have hletters : after? isLetter tag.letters (name ++ c :: rest) = some (c :: rest) :=
    Tag.after?_letters_eq_some_iff.2 ⟨name, hname, rfl⟩
  rw [first?_elementPattern, hafter, Option.bind_some, hletters, Option.bind_some, rests_optional,
    List.findSome?_append, List.findSome?_singleton, first?_ending, element?_of_spelled hname hcs]
  split
  · rename_i hc
    -- white space is no end, so leaving it to what comes after it is the only way
    rw [findSome?_tails first?_ending, ending?_of_isBlank hc, Option.map_none, Option.or_none,
      Option.map_map, hblank]
    refine congrArg (Option.map · _) (funext fun n => ?_)
    rw [Function.comp_apply, Nat.add_comm, ← List.drop_drop, hblank]
  · rw [List.findSome?_nil, Option.none_or, Option.map_map, hopen]
    refine congrArg (Option.map · _) (funext fun n => ?_)
    rw [Function.comp_apply, Nat.add_comm, ← List.drop_drop, hopen]

/-- The tag, and then the end, at once or after white space. -/
theorem first?_element (cs : List Char) :
    tag.elementPattern.first? cs = (element? tag cs (lookAhead (outlooks tag cs))).map cs.drop := by
  by_cases hopens : ∃ name c rest, tag.Spelled name ∧ cs = '<' :: (name ++ c :: rest)
  · obtain ⟨name, c, rest, hname, hcs⟩ := hopens
    exact first?_element_of_spelled hname hcs
  · have hnone : element? tag cs (lookAhead (outlooks tag cs)) = none :=
      Option.eq_none_iff_forall_ne_some.2 fun n hn => hopens (exists_of_element? hn)
    rw [hnone, Option.map_none, first?_elementPattern]
    refine Option.eq_none_iff_forall_ne_some.2 fun found h => ?_
    simp only [Option.bind_eq_some_iff, after?_beq_eq_some_iff, Tag.after?_letters_eq_some_iff] at h
    obtain ⟨_, rfl, rest, ⟨name, hname, rfl⟩, hrest⟩ := h
    cases rest with
    | nil => cases hrest
    | cons c rest => exact hopens ⟨name, c, rest, hname, rfl⟩

/-- **The matches of the pattern of a tag** at the head of a text are the regions of the tag. -/
theorem first?_pattern (cs : List Char) :
    tag.pattern.first? cs = (regionLength? tag cs (outlooks tag cs)).map cs.drop := by
  rw [Tag.pattern, first?_orElse, first?_comment, first?_element, regionLength?]
  cases comment? cs (lookAhead (outlooks tag cs)) <;> rfl

/-! ## Removing them -/

/-- **A pass removes the matches of the pattern of its tag.** -/
theorem pass_eq_remove (tag : Tag) (cs : List Char) : pass tag cs = tag.pattern.remove cs := by
  induction hlength : cs.length using Nat.strong_induction_on generalizing cs with
  | _ length ih =>
    subst hlength
    cases cs with
    | nil => rw [remove]; rfl
    | cons c cs =>
      rw [remove, first?_pattern]
      cases hregion : regionLength? tag (c :: cs) (outlooks tag (c :: cs)) with
      | none =>
        have hnone : ∀ n, ¬RegionAt tag (c :: cs) n := by
          intro n hn
          rw [regionLength?_eq_some_iff.2 hn] at hregion
          cases hregion
        rw [pass_cons_of_not_regionAt hnone, ih cs.length (by simp) cs rfl]
        rfl
      | some n =>
        have hat := regionLength?_eq_some_iff.1 hregion
        have hpos := hat.pos
        have hshort : ((c :: cs).drop n).length ≤ cs.length := by
          rw [List.length_drop, List.length_cons]
          omega
        rw [pass_of_regionAt hat, ih _ (Nat.lt_succ_of_le hshort) _ rfl, Option.map_some]
        exact (if_pos hshort).symm

/-- **Stripping removes the matches of two patterns**: first those of the pattern for styles, and then, from
what is left, those of the pattern for scripts. -/
theorem strip_eq_remove (markup : String) :
    strip markup = String.ofList (Tag.script.pattern.remove (Tag.style.pattern.remove markup.toList)) := by
  rw [strip, pass_eq_remove, pass_eq_remove]

end TemplateCode.Markup
