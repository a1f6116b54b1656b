import TemplateCode.Json.Number
import TemplateCode.Json.Text

/-!
# Reading JSON

`Json.ofText` reads a text as one JSON value. Faults are found from left to right, and the first one
is the answer.
-/

namespace TemplateCode.Json

/-- How many lists and records may be open at once. -/
def depthLimit : Nat := 127

namespace Reader

/-- The letters of a word after the first, which is already known. -/
def letters : List Char → Reader Unit
  | [] => return ()
  | expected :: rest => do
    match ← peek with
    | none => failHere .endInValue
    | some c =>
      if c = expected then
        skip
        letters rest
      else
        failNext .expectedWord

/-- A word and the value it stands for. -/
def word (written : String) (value : Json) : Reader Json := do
  skip
  letters written.toList.tail
  return value

/-- Moves to the next item of a list: `false` if there is none. -/
def nextItem (first : Bool) : Reader Bool := do
  match ← peekPastBlank with
  | none => failNext .endInList
  | some ']' =>
    skip
    return false
  | some c =>
    if first then
      return true
    else if c = ',' then
      skip
      match ← peekPastBlank with
      | none => failNext .endInValue
      | some ']' => failNext .trailingComma
      | some _ => return true
    else
      failNext .expectedCommaOrListEnd

/-- The items of a list through its end; `read` are those already read, last first. -/
def items (value : Reader Json) : (bound : Nat) → (read : List Json) → Reader Json
  | 0, _ => failNext .endInList
  | bound + 1, read => do
    if ← nextItem read.isEmpty then
      let item ← value
      items value bound (item :: read)
    else
      return .list read.reverse

/-- Moves to the key of the next field of a record: `false` if there is none. -/
def nextKey (first : Bool) : Reader Bool := do
  match ← peekPastBlank with
  | none => failNext .endInRecord
  | some '\x7d' =>
    skip
    return false
  | some c =>
    if first then
      key c
    else if c = ',' then
      skip
      match ← peekPastBlank with
      | none => failNext .endInValue
      | some '\x7d' => failNext .trailingComma
      | some c => key c
    else
      failNext .expectedCommaOrRecordEnd
where
  key (c : Char) : Reader Bool :=
    if c = '"' then return true else failNext .keyNotText

/-- The colon between a key and its value. -/
def colon : Reader Unit := do
  match ← peekPastBlank with
  | none => failNext .endInRecord
  | some ':' => skip
  | some _ => failNext .expectedColon

/-- The fields of a record through its end; `read` are those already read. -/
def fields (value : Reader Json) : (bound : Nat) → (first : Bool) → (read : List (String × Json)) →
    Reader Json
  | 0, _, _ => failNext .endInRecord
  | bound + 1, first, read => do
    if ← nextKey first then
      let key ← quoted
      colon
      let value' ← value
      fields value bound false (insertField key value' read)
    else
      return .record read

/-- A value in which at most `depth` lists and records are open at once. -/
def value (depth : Nat) : Reader Json := do
  match ← peekPastBlank with
  | none => failNext .endInValue
  | some 'n' => word "null" .null
  | some 't' => word "true" (.bool true)
  | some 'f' => word "false" (.bool false)
  | some '"' => .text <$> quoted
  | some c =>
    if c = '-' || c.isDigit then
      number
    else if c = '[' then
      match depth with
      | 0 => failNext .tooDeep
      | depth + 1 =>
        skip
        items (value depth) (← bound) []
    else if c = '\x7b' then
      match depth with
      | 0 => failNext .tooDeep
      | depth + 1 =>
        skip
        fields (value depth) (← bound) true []
    else
      failNext .expectedValue

/-- A value and nothing after it. -/
def document : Reader Json := do
  let json ← value depthLimit
  match ← peekPastBlank with
  | none => return json
  | some _ => failNext .trailingCharacters

end Reader

/-- Reads a text as one JSON value. -/
def ofText (text : String) : Except Fault Json :=
  (Reader.document.run' ⟨{}, text.toList⟩)

end TemplateCode.Json
