import TemplateCode.Markup.Outlook

/-!
# Stripping markup

Comments, styles and scripts are cut out of a template before it is parsed: first everything that is
a comment or a style, then, in what is left, everything that is a comment or a script. Each is a region
that starts with `<`: a comment, or an element of a given tag together with its content.

* `regionLength? tag cs ahead` is the length of the region at the head of `cs`, if one starts there.
* `pass` cuts out the regions of a tag, `strip` all of them.
-/

namespace TemplateCode.Markup

/-! ## White space -/

/-- The code points with the Unicode property `White_Space`, as ranges with both ends included. -/
def blankRanges : List (Nat × Nat) :=
  [(0x9, 0xD), (0x20, 0x20), (0x85, 0x85), (0xA0, 0xA0), (0x1680, 0x1680), (0x2000, 0x200A),
    (0x2028, 0x2029), (0x202F, 0x202F), (0x205F, 0x205F), (0x3000, 0x3000)]

def isBlank (c : Char) : Bool :=
  blankRanges.any fun (first, last) => first ≤ c.toNat && c.toNat ≤ last

/-! ## Regions -/

/-- A comment `<!-- … -->`, where `look` gives the outlook from a later place. -/
def comment? (cs : List Char) (look : Nat → Outlook) : Option Nat :=
  if startsWith ['<', '!', '-', '-'] cs then (look 4).comment.map (· + 4) else none

/-- An element of the given tag with its content: the tag is followed at once by the end of the
region, or by white space and then the first place where a region can end. -/
def element? (tag : Tag) (cs : List Char) (look : Nat → Outlook) : Option Nat :=
  match cs with
  | '<' :: rest =>
    match after? isLetter tag.letters rest with
    | some (c :: rest) =>
      let place := tag.letters.length + 1
      let found :=
        if isBlank c then (look (place + 1)).ending.map (· + 1)
        else endingBefore? (look (place + 1)).closing (c :: rest)
      found.map (· + place)
    | _ => none
  | _ => none

/-- The length of the region at the head of a text, where `ahead` has the outlooks from there on. -/
def regionLength? (tag : Tag) (cs : List Char) (ahead : List Outlook) : Option Nat :=
  (comment? cs (lookAhead ahead)).or (element? tag cs (lookAhead ahead))

/-! ## Cutting them out -/

/-- One pass from left to right: drops the next `pending` characters, which belong to a region that has
begun, and then every region of the tag from the first place on where one starts. `ahead` has the
outlooks from the head of the text on. -/
def dropRegions (tag : Tag) : (pending : Nat) → List Char → (ahead : List Outlook) → List Char
  | _, [], _ => []
  | left + 1, _ :: cs, ahead => dropRegions tag left cs ahead.tail
  | 0, c :: cs, ahead =>
    match regionLength? tag (c :: cs) ahead with
    | some length => dropRegions tag (length - 1) cs ahead.tail
    | none => c :: dropRegions tag 0 cs ahead.tail

/-- A text without the comments and the elements of a tag. -/
def pass (tag : Tag) (cs : List Char) : List Char :=
  dropRegions tag 0 cs (outlooks tag cs)

/-- A markup text without comments, styles and scripts. -/
def strip (markup : String) : String :=
  String.ofList (pass .script (pass .style markup.toList))

end TemplateCode.Markup
