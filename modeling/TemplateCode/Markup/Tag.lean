/-!
# Tags

The elements that are cut out of markup, and how their tags are found in a text. Letters of a tag
match in either case.

* `after? same pattern cs` is what follows `pattern` at the head of `cs`.
* `closing?` finds the closing tag of an element.
-/

namespace TemplateCode.Markup

/-- The elements whose content is no part of a template. -/
inductive Tag where
  | style
  | script
deriving DecidableEq, Repr

/-- The tag in lower case. -/
def Tag.letters : Tag → List Char
  | .style => ['s', 't', 'y', 'l', 'e']
  | .script => ['s', 'c', 'r', 'i', 'p', 't']

/-- Whether `c` is the small letter `letter` up to case. A long s counts as an `s`. -/
def isLetter (letter c : Char) : Bool :=
  c.toLower == letter || (letter == 's' && c == 'ſ')

/-- The rest of `cs` after `pattern`, each of whose characters is matched as `same` says. -/
def after? (same : Char → Char → Bool) : List Char → List Char → Option (List Char)
  | [], cs => some cs
  | _ :: _, [] => none
  | p :: pattern, c :: cs => if same p c then after? same pattern cs else none

/-- Whether `cs` begins with `pattern`. -/
def startsWith (pattern cs : List Char) : Bool :=
  (after? (· == ·) pattern cs).isSome

/-- The length of the closing tag `</tag>` at the head of a text. -/
def closing? (tag : Tag) (cs : List Char) : Option Nat :=
  match cs with
  | '<' :: '/' :: rest =>
    match after? isLetter tag.letters rest with
    | some ('>' :: _) => some (tag.letters.length + 3)
    | _ => none
  | _ => none

end TemplateCode.Markup
