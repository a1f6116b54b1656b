import TemplateCode.Binary64
import TemplateCode.Toml.Item
import TemplateCode.Toml.Text

/-!
# Numbers, dates and truth values of TOML

A scalar is a run of letters, digits and a few marks; what it is, is decided once the run is complete.
-/

namespace TemplateCode.Toml

/-- The characters that scalars consist of. -/
def isScalarMark (c : Char) : Bool :=
  c.isAlphanum || c = '_' || c = '+' || c = '-' || c = '.' || c = ':'

/-- Splits off what comes before the first character of which `p` holds. The second part, if there
is one, starts after that character. -/
def cutAt (p : Char → Bool) (cs : List Char) : List Char × Option (List Char) :=
  match cs.dropWhile fun c => !p c with
  | [] => (cs, none)
  | _ :: rest => (cs.takeWhile fun c => !p c, some rest)

/-- Digits with single underscores between them, given without the underscores. -/
def grouped (isDigit : Char → Bool) : List Char → Option (List Char)
  | [] => none
  | [c] => if isDigit c then some [c] else none
  | c :: '_' :: rest =>
    if isDigit c then (grouped isDigit rest).map (c :: ·) else none
  | c :: rest => if isDigit c then (grouped isDigit rest).map (c :: ·) else none

/-- The number that digits stand for in a base. -/
def digitsValue (base : Nat) (digits : List Char) : Nat :=
  digits.foldl (fun value c => value * base + (hexDigit? c).getD 0) 0

/-- A sign, a minus given as `true`, and what follows it. -/
def signed : List Char → Bool × List Char
  | '-' :: rest => (true, rest)
  | '+' :: rest => (false, rest)
  | cs => (false, cs)

/-- The digits of a whole number, which start with a zero only if that is all. -/
def wholeDigits? (cs : List Char) : Option (List Char) := do
  let digits ← grouped Char.isDigit cs
  if digits.head? = some '0' && cs.length ≠ 1 then none else some digits

/-- The bound of positive whole numbers of 64 bits with sign. -/
def signBound : Nat := 1 <<< 63

/-- A whole number in the given base, without a sign. -/
def basedInteger? (base : Nat) (isDigit : Char → Bool) (cs : List Char) : Option Item := do
  let value := digitsValue base (← grouped isDigit cs)
  if value < signBound then some (.integer value) else none

/-- A whole number of 64 bits with sign. -/
def integer? : List Char → Option Item
  | '0' :: 'x' :: cs => basedInteger? 16 (fun c => (hexDigit? c).isSome) cs
  | '0' :: 'o' :: cs => basedInteger? 8 (fun c => '0' ≤ c && c ≤ '7') cs
  | '0' :: 'b' :: cs => basedInteger? 2 (fun c => c = '0' || c = '1') cs
  | cs => do
    let (negative, cs) := signed cs
    let magnitude := digitsValue 10 (← wholeDigits? cs)
    if negative then
      if magnitude ≤ signBound then some (.integer (-magnitude)) else none
    else
      if magnitude < signBound then some (.integer magnitude) else none

/-- Whether a number of the given decimal digits times a power of ten rounds to infinity in 64-bit
floating point. -/
def isInfinite (digits : List Char) (exponent : Int) : Bool :=
  let significant := digits.dropWhile (· = '0')
  let magnitude : Int := significant.length + exponent
  let value := digitsValue 10 significant
  if significant.isEmpty || magnitude < 309 then false
  else if 309 < magnitude then true
  else if 0 ≤ exponent then Binary64.infinite ≤ value * powerOfTen exponent.toNat
  else Binary64.infinite * powerOfTen (-exponent).toNat ≤ value

/-- A number with a fraction or an exponent. One that is too large is refused, unless it is
negative. -/
def decimal? (cs : List Char) : Option Item := do
  let (negative, magnitude) := signed cs
  let (mantissa, exponent?) := cutAt (fun c => c = 'e' || c = 'E') magnitude
  let (whole, fraction?) := cutAt (· = '.') mantissa
  if exponent?.isNone && fraction?.isNone then none
  let whole ← wholeDigits? whole
  let fraction ← match fraction? with
    | some fraction => grouped Char.isDigit fraction
    | none => some []
  let exponent : Int ← match exponent? with
    | some exponent => do
      let (negative, digits) := signed exponent
      let value := digitsValue 10 (← grouped Char.isDigit digits)
      some (if negative then -value else value)
    | none => some 0
  if !negative && isInfinite (whole ++ fraction) (exponent - fraction.length) then none
  else some (.float (String.ofList cs))

/-- One of the numbers that have no digits. -/
def specialFloat? (cs : List Char) : Option Item :=
  let name := (signed cs).2
  if name = ['i', 'n', 'f'] || name = ['n', 'a', 'n'] then some (.float (String.ofList cs)) else none

/-- The number of two digits. -/
def twoDigits? (a b : Char) : Option Nat :=
  if a.isDigit && b.isDigit then some (digitsValue 10 [a, b]) else none

/-- The number of days of a month. -/
def monthLength (year month : Nat) : Nat :=
  if month = 2 then
    if year % 4 = 0 && (year % 100 ≠ 0 || year % 400 = 0) then 29 else 28
  else if month = 4 || month = 6 || month = 9 || month = 11 then 30
  else 31

/-- The rest after a date. -/
def afterDate? : List Char → Option (List Char)
  | a :: b :: c :: d :: '-' :: e :: f :: '-' :: g :: h :: rest => do
    let century ← twoDigits? a b
    let year ← twoDigits? c d
    let month ← twoDigits? e f
    let day ← twoDigits? g h
    if 1 ≤ month && month ≤ 12 && 1 ≤ day && day ≤ monthLength (century * 100 + year) month then
      some rest
    else
      none
  | _ => none

/-- The rest after an hour and a minute. -/
def afterMinute? : List Char → Option (List Char)
  | a :: b :: ':' :: c :: d :: rest => do
    let hour ← twoDigits? a b
    let minute ← twoDigits? c d
    if hour ≤ 23 && minute ≤ 59 then some rest else none
  | _ => none

/-- The rest after a time of day. -/
def afterTime? (cs : List Char) : Option (List Char) := do
  match ← afterMinute? cs with
  | ':' :: a :: b :: rest =>
    let second ← twoDigits? a b
    if 60 < second then none
    match rest with
    | '.' :: c :: rest => if c.isDigit then some (rest.dropWhile Char.isDigit) else none
    | rest => some rest
  | _ => none

/-- Whether a text is a distance from universal time, or nothing. -/
def isOffset : List Char → Bool
  | [] | ['Z'] | ['z'] => true
  | sign :: rest => (sign = '+' || sign = '-') && afterMinute? rest = some []

/-- Whether a text is a time of day with or without its distance from universal time. -/
def isZonedTime (cs : List Char) : Bool :=
  match afterTime? cs with
  | some rest => isOffset rest
  | none => false

/-- A date, a time of day, or both. -/
def moment? (cs : List Char) : Option Item :=
  let isMoment :=
    match afterDate? cs with
    | some [] => true
    | some (mark :: time) => (mark = 'T' || mark = 't') && isZonedTime time
    | none => afterTime? cs = some []
  if isMoment then some (.moment (String.ofList cs)) else none

def boolean? (cs : List Char) : Option Item :=
  if cs = ['t', 'r', 'u', 'e'] then some (.boolean true)
  else if cs = ['f', 'a', 'l', 's', 'e'] then some (.boolean false)
  else none

/-- What a complete run of characters stands for. -/
def scalarOf? (cs : List Char) : Option Item :=
  (boolean? cs).or ((integer? cs).or ((decimal? cs).or ((moment? cs).or (specialFloat? cs))))

/-- A scalar. Between a date and a time there may be a blank. -/
def scalar : Reads Item := fun cs =>
  let run := cs.takeWhile isScalarMark
  match afterDate? run, cs.dropWhile isScalarMark with
  | some [], ' ' :: rest =>
    let time := rest.takeWhile isScalarMark
    if isZonedTime time then
      some (.moment (String.ofList (run ++ ' ' :: time)), rest.dropWhile isScalarMark)
    else
      (scalarOf? run).map fun item => (item, ' ' :: rest)
  | _, rest => (scalarOf? run).map fun item => (item, rest)

end TemplateCode.Toml
