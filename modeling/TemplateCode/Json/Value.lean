/-!
# JSON values

Records keep their fields in document order. Of numbers, only natural numbers of 64 bits are ever
used as such; of any other number the numeral is kept.
-/

namespace TemplateCode

inductive Json where
  | null
  | bool (value : Bool)
  /-- A numeral without sign, fraction and exponent whose value fits 64 bits. -/
  | natural (value : UInt64)
  /-- Any other numeral, as it is written. -/
  | numeral (written : String)
  | text (value : String)
  | list (items : List Json)
  | record (fields : List (String × Json))
deriving Inhabited

namespace Json

/-- Adds a field to a record. A repeated key keeps its place and takes the new value. -/
def insertField (key : String) (value : Json) : List (String × Json) → List (String × Json)
  | [] => [(key, value)]
  | (other, old) :: fields =>
    if other = key then (key, value) :: fields else (other, old) :: insertField key value fields

end Json

end TemplateCode
