/-!
# TOML documents

A table has entries in document order. It remembers how it came about, since that decides what may
still be added to it.

* `Item.descend` follows a path of keys into tables, making those that are missing.
* `Item.assign` gives a key a value, `Item.declareTable` and `Item.declareElement` carry out the two
  kinds of headers. Each of them refuses what would define something twice.
-/

namespace TemplateCode.Toml

/-- How a table came about. -/
inductive Origin where
  /-- By a header of its own, or as the document itself. -/
  | header
  /-- On the way to a header further down. -/
  | passage
  /-- By a dotted key. -/
  | dotted
  /-- As a value, which nothing can be added to. -/
  | inline
deriving DecidableEq, Repr

/-- A value, a table, or a sequence of tables. -/
inductive Item where
  | text (value : String)
  | integer (value : Int)
  | float (written : String)
  | boolean (value : Bool)
  /-- A date, a time of day, or both. -/
  | moment (written : String)
  | array (items : List Item)
  | table (origin : Origin) (entries : List (String × Item))
  /-- The tables under a repeated header, latest first. -/
  | tables (elements : List (List (String × Item)))
deriving Inhabited

/-- The entries of a table. -/
abbrev Entries := List (String × Item)

namespace Item

/-- Replaces the value of a key. -/
def replace (key : String) (item : Item) (entries : Entries) : Entries :=
  entries.map fun (other, old) => if other = key then (key, item) else (other, old)

/-- Changes the table at the end of a path. The change is told how the table came about. Missing
tables are made on the way. A dotted key enters no table that has a header of its own, and nothing
enters a value. -/
def descend (byDots : Bool) (change : Origin → Entries → Option Entries) :
    List String → Origin → Entries → Option Entries
  | [], origin, entries => change origin entries
  | key :: path, _, entries =>
    match entries.lookup key with
    | none => do
      let made := if byDots then Origin.dotted else .passage
      return entries ++ [(key, .table made (← descend byDots change path made []))]
    | some (.table origin inner) =>
      if origin = .inline || (byDots && origin = .header) then
        none
      else do
        return replace key (.table origin (← descend byDots change path origin inner)) entries
    | some (.tables (latest :: earlier)) => do
      return replace key (.tables ((← descend byDots change path .header latest) :: earlier)) entries
    | some _ => none

/-- Adds a key that is not there yet. -/
def add (key : String) (item : Item) (entries : Entries) : Option Entries :=
  match entries.lookup key with
  | none => some (entries ++ [(key, item)])
  | some _ => none

/-- Gives a value to a key, which may be dotted. A dotted key adds only to tables made by dotted
keys. -/
def assign (path : List String) (key : String) (item : Item) (origin : Origin) (entries : Entries) :
    Option Entries :=
  descend true
    (fun origin entries =>
      if path ≠ [] && origin ≠ .dotted then none else add key item entries)
    path origin entries

/-- Carries out the header of a table. A table has one header at most, and none if dotted keys made
it. -/
def declareTable (path : List String) (key : String) (entries : Entries) : Option Entries :=
  descend false
    (fun _ entries =>
      match entries.lookup key with
      | none => some (entries ++ [(key, .table .header [])])
      | some (.table .passage inner) => some (replace key (.table .header inner) entries)
      | some _ => none)
    path .header entries

/-- Carries out the header of one more table in a sequence. -/
def declareElement (path : List String) (key : String) (entries : Entries) : Option Entries :=
  descend false
    (fun _ entries =>
      match entries.lookup key with
      | none => some (entries ++ [(key, .tables [[]])])
      | some (.tables elements) => some (replace key (.tables ([] :: elements)) entries)
      | some _ => none)
    path .header entries

end Item

end TemplateCode.Toml
