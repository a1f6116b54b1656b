import TemplateCode.Encoding

/-!
# Writing texts of TOML

A text is written in the plainest of the four styles that it fits into. Double quotes on one line
come first, since most texts need nothing else; escapes come last.
-/

namespace TemplateCode.Toml

/-- Whether a character can only be written as an escape. -/
def needsEscape (c : Char) : Bool :=
  (c.toNat < 0x20 && c ≠ '\t' && c ≠ '\n') || c.toNat = 0x7F

/-- Whether `c` occurs three times in a row; `seen` counts how often it just did. -/
def hasTriple (c : Char) : (seen : Nat) → List Char → Bool
  | _, [] => false
  | seen, d :: rest =>
    if d = c then seen = 2 || hasTriple c (seen + 1) rest else hasTriple c 0 rest

/-- The ways to write a text. -/
inductive Style where
  | basic
  | literal
  | basicLines
  | literalLines
deriving DecidableEq, Repr

/-- The first style that a text fits into. What fits into none is written with escapes. -/
def styleOf (text : List Char) : Style :=
  let control := text.any needsEscape
  if !control && !text.contains '\\' && !text.contains '"' && !text.contains '\n' then .basic
  else if !control && !text.contains '\'' && !text.contains '\n' then .literal
  else if !control && !text.contains '\\' && !hasTriple '"' 0 text then .basicLines
  else if !control && !hasTriple '\'' 0 text then .literalLines
  else if text.contains '\n' then .basicLines
  else .basic

/-- A character other than a quote and a line break, between double quotes. -/
def escapeChar (c : Char) : List Char :=
  if c = '\x08' then ['\\', 'b']
  else if c = '\t' then ['\\', 't']
  else if c = '\x0c' then ['\\', 'f']
  else if c = '\r' then ['\\', 'r']
  else if c = '\\' then ['\\', '\\']
  else if needsEscape c then '\\' :: 'u' :: fourHexDigits c.toNat
  else [c]

/-- A text between double quotes on one line. -/
def escapeText : List Char → List Char
  | [] => []
  | c :: rest =>
    (if c = '"' then ['\\', '"'] else if c = '\n' then ['\\', 'n'] else escapeChar c) ++ escapeText rest

/-- A text between double quotes on several lines. Of quotes in a row, every third is escaped; `seen`
counts those just written. -/
def escapeLines : (seen : Nat) → List Char → List Char
  | _, [] => []
  | seen, c :: rest =>
    if c = '"' then
      if seen < 2 then '"' :: escapeLines (seen + 1) rest else '\\' :: '"' :: escapeLines 0 rest
    else if c = '\n' then
      '\n' :: escapeLines 0 rest
    else
      escapeChar c ++ escapeLines 0 rest

/-- The line break after the opening quotes of a text that has line breaks. -/
def firstBreak (text : List Char) : List Char :=
  if text.contains '\n' then ['\n'] else []

/-- Writes a text in a style. -/
def Style.quote (style : Style) (text : List Char) : List Char :=
  match style with
  | basic => '"' :: escapeText text ++ ['"']
  | literal => '\'' :: text ++ ['\'']
  | basicLines => ['"', '"', '"'] ++ firstBreak text ++ escapeLines 0 text ++ ['"', '"', '"']
  | literalLines => ['\'', '\'', '\''] ++ firstBreak text ++ text ++ ['\'', '\'', '\'']

/-- Writes a text. -/
def quote (text : String) : String :=
  String.ofList ((styleOf text.toList).quote text.toList)

end TemplateCode.Toml
