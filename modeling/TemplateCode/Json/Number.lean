import TemplateCode.Binary64
import TemplateCode.Json.Cursor
import TemplateCode.Json.Value

/-!
# Numbers

A numeral is accepted if the number it stands for is not too large for a binary floating-point number
of 64 bits. The digits count up to what fits a natural number of 64 bits; digits after that only
scale it. Both this number and the power of ten are rounded before they are multiplied.

* `isTooLarge` says when the product is infinite.
* `Reader.number` reads a numeral.
-/

namespace TemplateCode.Json

/-- Whether `significand * 10 ^ exponent` is infinite in 64-bit floating point. -/
def isTooLarge (significand : Nat) (exponent : Int) : Bool :=
  0 < significand && 0 < exponent &&
    (308 < exponent ||
      Binary64.infinite ≤ Binary64.round significand * Binary64.round (powerOfTen exponent.toNat))

def digitValue (c : Char) : Nat :=
  c.toNat - '0'.toNat

/-- Reads digits onto a number as long as it fits 64 bits. Also gives the digits that are left. -/
def pushDigits (significand : Nat) : List Char → Nat × List Char
  | [] => (significand, [])
  | c :: digits =>
    let grown := significand * 10 + digitValue c
    if grown < wordBound then pushDigits grown digits else (significand, c :: digits)

/-- The value of exponent digits, or, if it does not fit 32 bits with sign, how many digits it takes
to see that. -/
def exponentValue : (taken value : Nat) → List Char → Except Nat Nat
  | _, value, [] => .ok value
  | taken, value, c :: digits =>
    let grown := value * 10 + digitValue c
    if grown < 1 <<< 31 then exponentValue (taken + 1) grown digits else .error (taken + 1)

namespace Reader

/-- Takes digits, of which there must be one. -/
def digits1 : Reader (List Char) := do
  match ← peek with
  | none => failHere .endInValue
  | some c => if c.isDigit then takeWhile Char.isDigit else failNext .invalidNumber

/-- The digits before the point. A zero stands alone. -/
def wholeDigits : Reader (List Char) := do
  match ← peek with
  | some '0' =>
    skip
    match ← peek with
    | some c => if c.isDigit then failNext .invalidNumber else return ['0']
    | none => return ['0']
  | _ => digits1

/-- The digits after the point, if there is a point. -/
def fractionDigits : Reader (Option (List Char)) := do
  match ← peek with
  | some '.' =>
    skip
    some <$> digits1
  | _ => return none

/-- The sign of an exponent, a minus given as `true`. -/
def exponentSign : Reader (Bool × List Char) := do
  match ← peek with
  | some '+' =>
    skip
    return (false, ['+'])
  | some '-' =>
    skip
    return (true, ['-'])
  | _ => return (false, [])

/-- The exponent, if there is one, as it is written and as a number. One that is out of all bounds is
refused at the digit that shows it, unless the number is zero or tiny. -/
def exponent? (significand : Nat) : Reader (Option (List Char × Int)) := do
  match ← peek with
  | some e =>
    if e = 'e' || e = 'E' then
      skip
      let (negative, sign) ← exponentSign
      let mark := (← get).mark
      let digits ← digits1
      let written := e :: sign ++ digits
      match exponentValue 0 0 digits with
      | .ok value => return some (written, if negative then -value else value)
      | .error taken =>
        if significand = 0 || negative then
          return some (written, -wordBound)
        else
          throw ⟨.numberOutOfRange, ⟨mark.line, mark.column + taken⟩⟩
    else
      return none
  | none => return none

/-- A number. -/
def number : Reader Json := do
  let negative := (← peek) = some '-'
  if negative then skip
  let whole ← wholeDigits
  let (significand, surplus) := pushDigits 0 whole
  let fraction? ← fractionDigits
  let fraction := fraction?.getD []
  let (significand, ignored) := pushDigits significand fraction
  let exponent? ← exponent? significand
  let scale : Int := surplus.length - (fraction.length - ignored.length : Nat)
  let exponent := scale + (exponent?.map Prod.snd).getD 0
  if isTooLarge significand exponent then
    failHere .numberOutOfRange
  else if !negative && surplus.isEmpty && fraction?.isNone && exponent?.isNone then
    return .natural significand.toUInt64
  else
    let point := if fraction?.isSome then ['.'] else []
    return .numeral <| String.ofList <|
      (if negative then ['-'] else []) ++ whole ++ point ++ fraction ++
        (exponent?.map Prod.fst).getD []

end Reader

end TemplateCode.Json
