import TemplateCode.Toml.Scalar

/-!
# Reading TOML

A document is a sequence of expressions: a key with a value, the header of a table, a comment or
nothing, each on lines of its own.
-/

namespace TemplateCode.Toml

/-- The greatest number of parts of a key, and of arrays and tables in one another in a value. -/
def depthLimit : Nat := 79

def skipBlank (cs : List Char) : List Char :=
  cs.dropWhile isBlank

/-- The rest after a given character. -/
def after? (expected : Char) : List Char → Option (List Char)
  | [] => none
  | c :: rest => if c = expected then some rest else none

/-- The rest after the end of a line: blanks, a comment, and a line break or the end of the text. -/
def afterLine? (cs : List Char) : Option (List Char) :=
  let rest :=
    match skipBlank cs with
    | '#' :: rest => rest.dropWhile isPlain
    | rest => rest
  match rest with
  | [] => some []
  | rest => afterBreak? rest

/-- Moves past blanks, line breaks and comments between the items of an array. -/
def skipFiller : (inComment : Bool) → List Char → List Char
  | _, [] => []
  | _, '\n' :: rest => skipFiller false rest
  | _, '\r' :: '\n' :: rest => skipFiller false rest
  | false, '#' :: rest => skipFiller true rest
  | inComment, c :: rest =>
    if isBlank c || (inComment && isPlain c) then skipFiller inComment rest else c :: rest

/-- The characters of a key without quotes. -/
def isBareMark (c : Char) : Bool :=
  c.isAlphanum || c = '_' || c = '-'

/-- One part of a key. -/
def keyPart : Reads String
  | '"' :: rest => (basicText rest).map fun (part, rest) => (String.ofList part, rest)
  | '\'' :: rest => (literalText rest).map fun (part, rest) => (String.ofList part, rest)
  | cs =>
    match cs.takeWhile isBareMark with
    | [] => none
    | part => some (String.ofList part, cs.dropWhile isBareMark)

/-- The parts of a key with points between them, as far as `bound` allows. -/
def keyParts : (bound : Nat) → Reads (List String)
  | 0, _ => none
  | bound + 1, cs => do
    let (part, rest) ← keyPart (skipBlank cs)
    match skipBlank rest with
    | '.' :: rest =>
      let (parts, rest) ← keyParts bound rest
      return (part :: parts, rest)
    | rest => return ([part], rest)

/-- A key: the parts before the last one, and the last one. -/
def key : Reads (List String × String) := fun cs => do
  let (parts, rest) ← keyParts (cs.length + 1) cs
  let last ← parts.getLast?
  if parts.length ≤ depthLimit then some ((parts.dropLast, last), rest) else none

/-- A key, a value, and what is between them. -/
def assignment (value : Reads Item) : Reads ((List String × String) × Item) := fun cs => do
  let (key, rest) ← key cs
  let rest ← after? '=' rest
  let (item, rest) ← value (skipBlank rest)
  return ((key, item), rest)

/-- The items of an array through its end, as far as `bound` allows. -/
def arrayItems (value : Reads Item) : (bound : Nat) → Reads (List Item)
  | 0, _ => none
  | bound + 1, cs =>
    match skipFiller false cs with
    | ']' :: rest => some ([], rest)
    | cs => do
      let (item, rest) ← value cs
      match skipFiller false rest with
      | ']' :: rest => return ([item], rest)
      | ',' :: rest =>
        let (items, rest) ← arrayItems value bound rest
        return (item :: items, rest)
      | _ => none

/-- The entries of a table that is a value, through its end, as far as `bound` allows. -/
def inlineEntries (value : Reads Item) : (bound : Nat) → Entries → Reads Entries
  | 0, _, _ => none
  | bound + 1, entries, cs => do
    let (((path, key), item), rest) ← assignment value cs
    let entries ← Item.assign path key item .inline entries
    match skipBlank rest with
    | '\x7d' :: rest => return (entries, rest)
    | ',' :: rest => inlineEntries value bound entries rest
    | _ => none

/-- A table that is a value, after its opening brace. -/
def inlineTable (value : Reads Item) : Reads Item := fun cs =>
  match skipBlank cs with
  | '\x7d' :: rest => some (.table .inline [], rest)
  | cs => (inlineEntries value (cs.length + 1) [] cs).map fun (entries, rest) =>
    (.table .inline entries, rest)

/-- A value in which at most `depth` arrays and tables are in one another. -/
def value (depth : Nat) : Reads Item := fun cs =>
  match cs with
  | '"' :: _ | '\'' :: _ => (quotedText cs).map fun (text, rest) => (.text (String.ofList text), rest)
  | '[' :: rest =>
    match depth with
    | 0 => none
    | depth + 1 => (arrayItems (value depth) (rest.length + 1) rest).map fun (items, rest) =>
      (.array items, rest)
  | '\x7b' :: rest =>
    match depth with
    | 0 => none
    | depth + 1 => inlineTable (value depth) rest
  | cs => scalar cs

/-- A document that is being read: what is there so far, and the table that keys go to. -/
structure Document where
  entries : Entries := []
  current : List String := []

namespace Document

/-- Gives a value to a key of the current table. -/
def assign (document : Document) (path : List String) (key : String) (item : Item) :
    Option Document := do
  let entries ←
    Item.descend false (Item.assign path key item) document.current .header document.entries
  return { document with entries }

/-- Reads an expression. -/
def expression (document : Document) : Reads Document := fun cs =>
  match cs with
  | '#' :: _ => do
    return (document, ← afterLine? cs)
  | '\n' :: _ | '\r' :: _ => do
    return (document, ← afterBreak? cs)
  | '[' :: '[' :: rest => do
    let ((path, key), rest) ← key rest
    let rest ← after? ']' (← after? ']' rest)
    let entries ← Item.declareElement path key document.entries
    return (⟨entries, path ++ [key]⟩, ← afterLine? rest)
  | '[' :: rest => do
    let ((path, key), rest) ← key rest
    let rest ← after? ']' rest
    let entries ← Item.declareTable path key document.entries
    return (⟨entries, path ++ [key]⟩, ← afterLine? rest)
  | cs => do
    let (((path, key), item), rest) ← assignment (value depthLimit) cs
    return (← document.assign path key item, ← afterLine? rest)

/-- Reads the expressions of a text, as far as `bound` allows. -/
def expressions : (bound : Nat) → Document → List Char → Option Document
  | 0, _, _ => none
  | bound + 1, document, cs =>
    match skipBlank cs with
    | [] => some document
    | cs => do
      let (document, rest) ← document.expression cs
      expressions bound document rest

end Document

/-- A text without the mark that may stand at its beginning. -/
def withoutMark : List Char → List Char
  | '\ufeff' :: rest => rest
  | cs => cs

/-- Reads a text as TOML. -/
def ofText (text : String) : Option Entries :=
  let cs := withoutMark text.toList
  (Document.expressions (cs.length + 1) {} cs).map Document.entries

end TemplateCode.Toml
