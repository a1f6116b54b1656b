/-!
# Encodings

Numbers are written with hexadecimal digits in several places, and texts are kept as bytes.

* `hexNumber?` reads hexadecimal digits, `fourHexDigits` writes them.
* `Utf8.encode` gives the bytes of a text.
* `Utf8.decode` gives the text of some bytes, with a replacement for whatever encodes no character.
-/

namespace TemplateCode

/-! ## Hexadecimal numbers -/

/-- The value of a hexadecimal digit. -/
def hexDigit? (c : Char) : Option Nat :=
  if '0' ≤ c ∧ c ≤ '9' then some (c.toNat - '0'.toNat)
  else if 'a' ≤ c ∧ c ≤ 'f' then some (c.toNat - 'a'.toNat + 10)
  else if 'A' ≤ c ∧ c ≤ 'F' then some (c.toNat - 'A'.toNat + 10)
  else none

/-- The value of hexadecimal digits. -/
def hexNumber? (digits : List Char) : Option Nat :=
  digits.foldlM (fun value c => (hexDigit? c).map (value * 16 + ·)) 0

/-- The digit with a value, in upper case. -/
def hexDigit (value : Nat) : Char :=
  Char.ofNat (if value < 10 then '0'.toNat + value else 'A'.toNat + (value - 10))

/-- The last four hexadecimal digits of a number. -/
def fourHexDigits (value : Nat) : List Char :=
  [hexDigit (value / 4096 % 16), hexDigit (value / 256 % 16), hexDigit (value / 16 % 16),
    hexDigit (value % 16)]

/-! ## Texts as bytes -/

namespace Utf8

/-- The bytes of characters. -/
def encode (cs : List Char) : List UInt8 :=
  cs.flatMap String.utf8EncodeChar

/-- What is read where no character is encoded. -/
def replacement : Char := '\uFFFD'

/-- The beginning of a character. -/
structure Pending where
  /-- How many bytes must come after the next one. -/
  more : Nat
  /-- The bits of the bytes so far. -/
  bits : Nat
  /-- The least value that the next byte may have. -/
  low : Nat := 0x80
  /-- The greatest value that the next byte may have. -/
  high : Nat := 0xBF

/-- Reads the value of a byte with which a character begins. The bounds on the second byte leave out
what has a shorter encoding, surrogates, and numbers that are too large. -/
def lead (value : Nat) : List Char × Option Pending :=
  if value < 0x80 then ([Char.ofNat value], none)
  else if value < 0xC2 then ([replacement], none)
  else if value < 0xE0 then ([], some { more := 0, bits := value - 0xC0 })
  else if value < 0xF0 then
    let low := if value = 0xE0 then 0xA0 else 0x80
    let high := if value = 0xED then 0x9F else 0xBF
    ([], some { more := 1, bits := value - 0xE0, low, high })
  else if value < 0xF5 then
    let low := if value = 0xF0 then 0x90 else 0x80
    let high := if value = 0xF4 then 0x8F else 0xBF
    ([], some { more := 2, bits := value - 0xF0, low, high })
  else ([replacement], none)

/-- Reads the value of a byte within a character. If it cannot stand there, what has begun is
replaced, and the byte begins a character of its own. -/
def trail (pending : Pending) (value : Nat) : List Char × Option Pending :=
  if pending.low ≤ value ∧ value ≤ pending.high then
    let bits := pending.bits * 64 + (value - 0x80)
    match pending.more with
    | 0 => ([Char.ofNat bits], none)
    | more + 1 => ([], some { more, bits })
  else
    (replacement :: (lead value).1, (lead value).2)

/-- Reads a byte, and gives the characters that end with it and what begins with it. -/
def step (pending : Option Pending) (byte : UInt8) : List Char × Option Pending :=
  match pending with
  | none => lead byte.toNat
  | some pending => trail pending byte.toNat

/-- Reads bytes after the beginning of a character, or after none. -/
def decodeFrom : Option Pending → List UInt8 → List Char
  | none, [] => []
  | some _, [] => [replacement]
  | pending, byte :: bytes => (step pending byte).1 ++ decodeFrom (step pending byte).2 bytes

/-- The text of some bytes. -/
def decode (bytes : List UInt8) : String :=
  String.ofList (decodeFrom none bytes)

end Utf8

end TemplateCode
