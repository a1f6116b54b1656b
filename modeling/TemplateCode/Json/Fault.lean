/-!
# Faults of JSON text
-/

namespace TemplateCode.Json

/-- What can be wrong with a text that should be JSON. -/
inductive Problem where
  | endInValue
  | endInText
  | endInList
  | endInRecord
  | expectedWord
  | expectedValue
  | expectedColon
  | expectedCommaOrListEnd
  | expectedCommaOrRecordEnd
  | keyNotText
  | trailingComma
  | trailingCharacters
  | invalidNumber
  | numberOutOfRange
  | controlCharacter
  | invalidEscape
  | loneSurrogate
  | unpairedSurrogate
  | tooDeep
deriving DecidableEq, Repr

def Problem.message : Problem → String
  | endInValue => "EOF while parsing a value"
  | endInText => "EOF while parsing a string"
  | endInList => "EOF while parsing a list"
  | endInRecord => "EOF while parsing an object"
  | expectedWord => "expected ident"
  | expectedValue => "expected value"
  | expectedColon => "expected `:`"
  | expectedCommaOrListEnd => "expected `,` or `]`"
  | expectedCommaOrRecordEnd => "expected `,` or `\x7d`"
  | keyNotText => "key must be a string"
  | trailingComma => "trailing comma"
  | trailingCharacters => "trailing characters"
  | invalidNumber => "invalid number"
  | numberOutOfRange => "number out of range"
  | controlCharacter => "control character (\\u0000-\\u001F) found while parsing a string"
  | invalidEscape => "invalid escape"
  | loneSurrogate => "lone leading surrogate in hex escape"
  | unpairedSurrogate => "unexpected end of hex escape"
  | tooDeep => "recursion limit exceeded"

/-- A place in a text: lines count from one, columns are bytes since the last line break. -/
structure Mark where
  line : Nat := 1
  column : Nat := 0
deriving DecidableEq, Repr

namespace Mark

/-- The place after a character. -/
def after (mark : Mark) (c : Char) : Mark :=
  if c = '\n' then ⟨mark.line + 1, 0⟩ else ⟨mark.line, mark.column + c.utf8Size⟩

/-- The place after the first byte of a character. -/
def afterByte (mark : Mark) (c : Char) : Mark :=
  if c = '\n' then ⟨mark.line + 1, 0⟩ else ⟨mark.line, mark.column + 1⟩

/-- The place after a number of bytes of a text. -/
def afterBytes (mark : Mark) : Nat → List Char → Mark
  | 0, _ => mark
  | _ + 1, [] => mark
  | n + 1, c :: cs =>
    if c.utf8Size ≤ n + 1 then (mark.after c).afterBytes (n + 1 - c.utf8Size) cs
    else ⟨mark.line, mark.column + (n + 1)⟩

end Mark

/-- A problem and its place. -/
structure Fault where
  problem : Problem
  mark : Mark
deriving DecidableEq, Repr

def Fault.message (fault : Fault) : String :=
  fault.problem.message ++ " at line " ++ Nat.repr fault.mark.line ++ " column " ++
    Nat.repr fault.mark.column

end TemplateCode.Json
