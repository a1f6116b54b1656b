import TemplateCode.Markup.Tag

/-!
# Looking ahead in markup

Where a region ends depends on what comes first further on. An `Outlook` says how far it is from a
place through the first end of each sort.

* `Outlook.of` is the outlook from the start of a text, `lengthThrough?` being what it searches by.
* `outlooks` gives the outlooks from all places of a text in one go, each from the next one, and
  `lookAhead_outlooks` says that they are right. Searching anew from every place would take time
  that grows faster than the text.
-/

namespace TemplateCode.Markup

/-- The length of the text through the first match of a pattern, where `match?` is the length of a
match at the head of a text. -/
def lengthThrough? (match? : List Char → Option Nat) : List Char → Option Nat
  | [] => match? []
  | c :: cs => (match? (c :: cs)).or ((lengthThrough? match? cs).map (· + 1))

/-- The end `-->` of a comment. -/
def commentEnd? (cs : List Char) : Option Nat :=
  if startsWith ['-', '-', '>'] cs then some 3 else none

/-- The end of an element that begins at the head of a text: `/>`, or `>` and the content through the
first closing tag. A `>` after which nothing is closed ends nothing. `closing` is the length through
the first closing tag from the second character on. -/
def endingBefore? (closing : Option Nat) : List Char → Option Nat
  | '/' :: '>' :: _ => some 2
  | '>' :: _ => closing.map (· + 1)
  | _ => none

/-- The end of an element that begins at the head of a text. -/
def ending? (tag : Tag) (cs : List Char) : Option Nat :=
  endingBefore? (lengthThrough? (closing? tag) cs.tail) cs

/-- How far it is through the first end of each sort. -/
structure Outlook where
  comment : Option Nat := none
  closing : Option Nat := none
  ending : Option Nat := none
deriving DecidableEq, Repr

namespace Outlook

/-- The outlook from the start of a text. -/
def of (tag : Tag) (cs : List Char) : Outlook where
  comment := lengthThrough? commentEnd? cs
  closing := lengthThrough? (closing? tag) cs
  ending := lengthThrough? (ending? tag) cs

/-- The outlook from the head of `cs`, given the outlook from the next place. -/
def back (tag : Tag) (cs : List Char) (next : Outlook) : Outlook where
  comment := (commentEnd? cs).or (next.comment.map (· + 1))
  closing := (closing? tag cs).or (next.closing.map (· + 1))
  ending := (endingBefore? next.closing cs).or (next.ending.map (· + 1))

theorem of_nil (tag : Tag) : of tag [] = {} := by
  cases tag <;> rfl

theorem of_cons (tag : Tag) (c : Char) (cs : List Char) :
    of tag (c :: cs) = back tag (c :: cs) (of tag cs) := rfl

end Outlook

/-- The outlook that comes first, and an outlook on nothing if there is none. -/
def nearest (ahead : List Outlook) : Outlook :=
  ahead.headD {}

/-- The outlook from the place that is `k` characters on, where `ahead` has the outlooks from here on. -/
def lookAhead (ahead : List Outlook) (k : Nat) : Outlook :=
  nearest (ahead.drop k)

/-- Goes one character back from `cs`, with the outlooks from there on. -/
def stepBack (tag : Tag) (c : Char) (seen : List Char × List Outlook) : List Char × List Outlook :=
  let cs := c :: seen.1
  (cs, Outlook.back tag cs (nearest seen.2) :: seen.2)

/-- The outlooks from all places of a text. -/
def outlooks (tag : Tag) (cs : List Char) : List Outlook :=
  (cs.foldr (stepBack tag) ([], [])).2

theorem foldr_stepBack_fst (tag : Tag) (cs : List Char) :
    (cs.foldr (stepBack tag) ([], [])).1 = cs := by
  induction cs with
  | nil => rfl
  | cons c cs ih => simp [stepBack, ih]

theorem outlooks_cons (tag : Tag) (c : Char) (cs : List Char) :
    outlooks tag (c :: cs) =
      Outlook.back tag (c :: cs) (nearest (outlooks tag cs)) :: outlooks tag cs := by
  simp [outlooks, stepBack, foldr_stepBack_fst]

theorem nearest_outlooks (tag : Tag) (cs : List Char) : nearest (outlooks tag cs) = .of tag cs := by
  induction cs with
  | nil => exact (Outlook.of_nil tag).symm
  | cons c cs ih => rw [outlooks_cons, Outlook.of_cons, ih]; rfl

theorem drop_outlooks (tag : Tag) (k : Nat) (cs : List Char) :
    (outlooks tag cs).drop k = outlooks tag (cs.drop k) := by
  induction cs generalizing k with
  | nil => simp [outlooks]
  | cons c cs ih =>
    cases k with
    | zero => rfl
    | succ k => rw [outlooks_cons, List.drop_succ_cons, ih, List.drop_succ_cons]

/-- Looking ahead gives the outlook from the place that is looked at. -/
theorem lookAhead_outlooks (tag : Tag) (cs : List Char) (k : Nat) :
    lookAhead (outlooks tag cs) k = .of tag (cs.drop k) := by
  rw [lookAhead, drop_outlooks, nearest_outlooks]

end TemplateCode.Markup
