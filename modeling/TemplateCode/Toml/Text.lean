import TemplateCode.Encoding

/-!
# Texts of TOML

A text is quoted in one of four ways: by single or double quotes, on one line or, with three quotes,
on several. Between double quotes there are escapes.

A reader takes a list of characters and gives what it read and the rest.
-/

namespace TemplateCode.Toml

/-- Reads something off the head of a text and gives the rest. -/
abbrev Reads (α : Type) := List Char → Option (α × List Char)

/-- Whether a character may stand for itself: a tab, or anything but a control character of ASCII. -/
def isPlain (c : Char) : Bool :=
  c = '\t' || (0x20 ≤ c.toNat && c.toNat ≠ 0x7F)

/-- Blanks and tabs. -/
def isBlank (c : Char) : Bool :=
  c = ' ' || c = '\t'

/-- The rest after a line break. -/
def afterBreak? : List Char → Option (List Char)
  | '\n' :: rest => some rest
  | '\r' :: '\n' :: rest => some rest
  | _ => none

/-- The character with a given hexadecimal code. -/
def codePoint? (digits : List Char) : Option Char := do
  let code ← hexNumber? digits
  if code.isValidChar then some (Char.ofNat code) else none

/-- The character that an escape of one letter stands for. -/
def escaped? : Char → Option Char
  | 'b' => some '\x08'
  | 't' => some '\t'
  | 'n' => some '\n'
  | 'f' => some '\x0c'
  | 'r' => some '\r'
  | '"' => some '"'
  | '\\' => some '\\'
  | _ => none

/-- Puts a character in front of what is read after it. -/
def push (c : Option Char) (read : Option (List Char × List Char)) : Option (List Char × List Char) :=
  match c, read with
  | some c, some (text, rest) => some (c :: text, rest)
  | _, _ => none

/-- A text on one line between double quotes, after the opening quote. -/
def basicText : Reads (List Char)
  | [] => none
  | '"' :: rest => some ([], rest)
  | '\\' :: 'u' :: a :: b :: c :: d :: rest => push (codePoint? [a, b, c, d]) (basicText rest)
  | '\\' :: 'U' :: a :: b :: c :: d :: e :: f :: g :: h :: rest =>
    push (codePoint? [a, b, c, d, e, f, g, h]) (basicText rest)
  | '\\' :: c :: rest => push (escaped? c) (basicText rest)
  | c :: rest => if isPlain c && c ≠ '\\' then push (some c) (basicText rest) else none

/-- A text on one line between single quotes, after the opening quote. -/
def literalText : Reads (List Char)
  | [] => none
  | '\'' :: rest => some ([], rest)
  | c :: rest => if isPlain c then push (some c) (literalText rest) else none

/-- Where a reader is in the gap that a backslash at the end of a line makes. -/
inductive Gap where
  /-- In no gap. -/
  | outside
  /-- Before the line break. -/
  | before
  /-- After the line break. -/
  | after
deriving DecidableEq, Repr

/-- A text on several lines between double quotes, after the opening quotes. Two quotes at most may
stand before the closing ones. -/
def basicLines : Gap → Reads (List Char)
  | _, [] => none
  | .before, '\n' :: rest => basicLines .after rest
  | .before, '\r' :: '\n' :: rest => basicLines .after rest
  | .before, c :: rest => if isBlank c then basicLines .before rest else none
  | .after, ' ' :: rest => basicLines .after rest
  | .after, '\t' :: rest => basicLines .after rest
  | .after, '\n' :: rest => basicLines .after rest
  | .after, '\r' :: '\n' :: rest => basicLines .after rest
  | _, '"' :: '"' :: '"' :: '"' :: '"' :: rest => some (['"', '"'], rest)
  | _, '"' :: '"' :: '"' :: '"' :: rest => some (['"'], rest)
  | _, '"' :: '"' :: '"' :: rest => some ([], rest)
  | _, '\n' :: rest => push (some '\n') (basicLines .outside rest)
  | _, '\r' :: '\n' :: rest => push (some '\n') (basicLines .outside rest)
  | _, '\\' :: 'u' :: a :: b :: c :: d :: rest =>
    push (codePoint? [a, b, c, d]) (basicLines .outside rest)
  | _, '\\' :: 'U' :: a :: b :: c :: d :: e :: f :: g :: h :: rest =>
    push (codePoint? [a, b, c, d, e, f, g, h]) (basicLines .outside rest)
  | _, '\\' :: '\n' :: rest => basicLines .after rest
  | _, '\\' :: '\r' :: '\n' :: rest => basicLines .after rest
  | _, '\\' :: c :: rest =>
    if isBlank c then basicLines .before rest else push (escaped? c) (basicLines .outside rest)
  | _, c :: rest =>
    if isPlain c && c ≠ '\\' then push (some c) (basicLines .outside rest) else none

/-- A text on several lines between single quotes, after the opening quotes. Two quotes at most may
stand before the closing ones. -/
def literalLines : Reads (List Char)
  | [] => none
  | '\'' :: '\'' :: '\'' :: '\'' :: '\'' :: rest => some (['\'', '\''], rest)
  | '\'' :: '\'' :: '\'' :: '\'' :: rest => some (['\''], rest)
  | '\'' :: '\'' :: '\'' :: rest => some ([], rest)
  | '\n' :: rest => push (some '\n') (literalLines rest)
  | '\r' :: '\n' :: rest => push (some '\n') (literalLines rest)
  | c :: rest => if isPlain c then push (some c) (literalLines rest) else none

/-- A text on several lines without the line break that may follow the opening quotes. -/
def withoutFirstBreak (cs : List Char) : List Char :=
  (afterBreak? cs).getD cs

/-- A quoted text of any kind. -/
def quotedText : Reads (List Char)
  | '"' :: '"' :: '"' :: rest => basicLines .outside (withoutFirstBreak rest)
  | '"' :: rest => basicText rest
  | '\'' :: '\'' :: '\'' :: rest => literalLines (withoutFirstBreak rest)
  | '\'' :: rest => literalText rest
  | _ => none

end TemplateCode.Toml
