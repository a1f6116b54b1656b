import TemplateCode.Encoding
import TemplateCode.Json.Cursor

/-!
# Quoted texts

A character is written as itself or as an escape. Characters beyond the first 65536 are escaped as a
pair of surrogates.
-/

namespace TemplateCode.Json

def isHighSurrogate (n : Nat) : Bool :=
  0xD800 ≤ n && n ≤ 0xDBFF

def isLowSurrogate (n : Nat) : Bool :=
  0xDC00 ≤ n && n ≤ 0xDFFF

namespace Reader

/-- Four hexadecimal digits. The four bytes count as read even if they are something else. -/
def hexEscape : Reader Nat := do
  let cursor ← get
  let four := cursor.rest.take 4
  if (String.ofList four).utf8ByteSize < 4 then
    throw ⟨.endInText, cursor.mark.afterBytes 4 cursor.rest⟩
  match hexNumber? four with
  | some n =>
    for _ in four do skip
    return n
  | none => throw ⟨.invalidEscape, cursor.mark.afterBytes 4 cursor.rest⟩

/-- The character that must follow the first half of a pair of surrogates. -/
def expectInPair (expected : Char) : Reader Unit := do
  match ← peek with
  | none => failHere .endInText
  | some c => if c = expected then skip else failNext .unpairedSurrogate

/-- The character of an escape after `\u`. -/
def unicodeEscape : Reader Char := do
  let first ← hexEscape
  if isLowSurrogate first then
    failHere .loneSurrogate
  else if isHighSurrogate first then
    expectInPair '\\'
    expectInPair 'u'
    let second ← hexEscape
    if isLowSurrogate second then
      return Char.ofNat (0x10000 + (first - 0xD800) * 0x400 + (second - 0xDC00))
    else
      failHere .loneSurrogate
  else
    return Char.ofNat first

/-- The character of an escape after the backslash. -/
def escape : Reader Char := do
  match ← peek with
  | none => failHere .endInText
  | some 'u' =>
    skip
    unicodeEscape
  | some c =>
    match plain? c with
    | some meant =>
      skip
      return meant
    | none => failNext .invalidEscape
where
  plain? : Char → Option Char
    | '"' => some '"'
    | '\\' => some '\\'
    | '/' => some '/'
    | 'b' => some '\x08'
    | 'f' => some '\x0c'
    | 'n' => some '\n'
    | 'r' => some '\r'
    | 't' => some '\t'
    | _ => none

/-- Characters through the closing quote; `read` are those already read, last first. -/
def characters : (bound : Nat) → (read : List Char) → Reader String
  | 0, _ => failHere .endInText
  | bound + 1, read => do
    match ← peek with
    | none => failHere .endInText
    | some '"' =>
      skip
      return String.ofList read.reverse
    | some '\\' =>
      skip
      let c ← escape
      characters bound (c :: read)
    | some c =>
      if c.toNat < 0x20 then
        failNext .controlCharacter
      else
        skip
        characters bound (c :: read)

/-- A quoted text, from its opening quote on. -/
def quoted : Reader String := do
  skip
  characters (← bound) []

end Reader

end TemplateCode.Json
