import TemplateCode.Path

/-!
# A file system

A file system without links, as a value. Directories and files are found by the names on the way to
them from the root, which is always a directory.

* `Disk.walk` follows segments from a directory.
* `Disk.read`, `Disk.write`, `Disk.createDirectory`, `Disk.createDirectories` take a path and the
  working directory.
* A file is written in two steps: `Disk.openFile` empties it and `Disk.fill` puts something into it. The
  second may stop short.
-/

namespace TemplateCode

/-- The names on the way from the root. -/
abbrev Location := List Segment

inductive Entry where
  | directory
  | file (content : ByteArray)
  /-- A device that takes everything and keeps nothing. -/
  | sink

namespace Entry

def isDirectory : Entry → Bool
  | directory => true
  | _ => false

/-- What a file holds. -/
def content? : Entry → Option ByteArray
  | file content => some content
  | _ => none

/-- What is read. -/
def reading? : Entry → Option ByteArray
  | directory => none
  | file content => some content
  | sink => some .empty

/-- What becomes of an entry that is written to. -/
def fill (content : ByteArray) : Option Entry → Entry
  | some sink => sink
  | _ => file content

end Entry

/-- A file system: what is where. -/
structure Disk where
  entries : List (Location × Entry) := []
  /-- Where writing stops short, and after how many bytes: the device is full, a quota is used up, or
  it fails otherwise. -/
  limits : List (Location × Nat) := []

/-- Why a path leads nowhere. -/
inductive Stray where
  /-- Something on the way does not exist. -/
  | missing
  /-- Something on the way is not a directory. -/
  | blocked
deriving DecidableEq, Repr

namespace Disk

/-- What is at a location. -/
def lookup? (disk : Disk) (location : Location) : Option Entry :=
  if location = [] then some .directory else disk.entries.lookup location

/-- Puts something at a location, in place of what was there. -/
def put (disk : Disk) (location : Location) (entry : Entry) : Disk :=
  { disk with entries := (location, entry) :: disk.entries.filter fun (other, _) => other ≠ location }

def isDirectoryAt (disk : Disk) (location : Location) : Bool :=
  (disk.lookup? location).any Entry.isDirectory

/-- Follows segments from a location. Every segment needs a directory to start from. -/
def walk (disk : Disk) : Location → List Segment → Except Stray Location
  | here, [] => .ok here
  | here, segment :: segments =>
    if !disk.isDirectoryAt here then
      .error .blocked
    else if Path.isIdle segment then
      disk.walk here segments
    else if segment = Path.up then
      disk.walk here.dropLast segments
    else
      let next := here ++ [segment]
      if (disk.lookup? next).isSome then disk.walk next segments else .error .missing

/-- The location at which a path starts, and the segments to follow from there. -/
def route (here : Location) (path : Path) : Location × List Segment :=
  match Path.segments path.bytes with
  | [] :: first :: rest => ([], first :: rest)
  | segments => (here, segments)

/-- Whether a path can be looked up at all, whatever is on the disk: it has at least one byte and
fewer than 4096, and none of them is zero. -/
def isUsable (path : Path) : Bool :=
  !path.isEmpty && path.bytes.length < 4096 && !path.bytes.contains 0

/-- Where a path leads. -/
def resolve (disk : Disk) (here : Location) (path : Path) : Except Stray Location :=
  if isUsable path then
    let (start, segments) := route here path
    disk.walk start segments
  else
    .error .blocked

/-- What a path leads to. -/
def find? (disk : Disk) (here : Location) (path : Path) : Option Entry :=
  match disk.resolve here path with
  | .ok location => disk.lookup? location
  | .error _ => none

def isDirectory (disk : Disk) (here : Location) (path : Path) : Bool :=
  (disk.find? here path).any Entry.isDirectory

/-- What is read at a path. -/
def read (disk : Disk) (here : Location) (path : Path) : Option ByteArray :=
  (disk.find? here path).bind Entry.reading?

def isFile (disk : Disk) (here : Location) (path : Path) : Bool :=
  ((disk.find? here path).bind Entry.content?).isSome

/-- The directory that the last of the segments is looked up in, and that segment. -/
def target (disk : Disk) (start : Location) (segments : List Segment) :
    Except Stray (Location × Segment) := do
  let directory ← disk.walk start segments.dropLast
  if disk.isDirectoryAt directory then
    return (directory, segments.getLast?.getD [])
  else
    throw .blocked

/-- Whether a segment can be the name of a new entry: it leads away from the directory and has at
most 255 bytes. -/
def isName (segment : Segment) : Bool :=
  !Path.isIdle segment && segment ≠ Path.up && segment.length ≤ 255

/-! ## Files -/

/-- Puts something into the file at a location, in place of what was in it. -/
def fill (disk : Disk) (location : Location) (content : ByteArray) : Disk :=
  disk.put location (Entry.fill content (disk.lookup? location))

/-- Opens a file in an existing directory, which empties it or makes an empty one, and gives its
location. A directory is not opened. -/
def openFile (disk : Disk) (here : Location) (path : Path) : Option (Location × Disk) :=
  if isUsable path then
    let (start, segments) := route here path
    match disk.target start segments with
    | .ok (directory, name) =>
      let location := directory ++ [name]
      if isName name && !disk.isDirectoryAt location then some (location, disk.fill location .empty)
      else none
    | .error _ => none
  else
    none

/-- Writes a file: opens it and puts the content into it, as far as it gets. Says whether it got to
the end. -/
def write (disk : Disk) (here : Location) (path : Path) (content : ByteArray) : Bool × Disk :=
  match disk.openFile here path with
  | some (location, disk) =>
    match (disk.limits.lookup location).filter (· < content.size) with
    | some limit => (false, disk.fill location (content.extract 0 limit))
    | none => (true, disk.fill location content)
  | none => (false, disk)

/-! ## Directories -/

/-- What becomes of the wish for a directory. -/
inductive Creation where
  | created (disk : Disk)
  /-- There is no directory to put it into. -/
  | missing
  /-- There is something already, or something in the way. -/
  | refused

/-- Creates a directory in an existing one. -/
def createDirectory (disk : Disk) (here : Location) (path : Path) : Creation :=
  if isUsable path then
    let (start, segments) := route here path
    match disk.target start (segments.reverse.dropWhile (· = [])).reverse with
    | .ok (directory, name) =>
      let location := directory ++ [name]
      if isName name && (disk.lookup? location).isNone then .created (disk.put location .directory)
      else .refused
    | .error .missing => .missing
    | .error .blocked => .refused
  else
    .refused

/-- Creates a directory and the directories above it, as far as `bound` allows. On failure the file
system is as far as it got. -/
def createWithin (here : Location) : (bound : Nat) → Disk → Path → Bool × Disk
  | 0, disk, _ => (false, disk)
  | bound + 1, disk, path =>
    if path.isEmpty then
      (true, disk)
    else
      match disk.createDirectory here path with
      | .created disk => (true, disk)
      | .refused => (disk.isDirectory here path, disk)
      | .missing =>
        match path.parent? with
        | none => (false, disk)
        | some parent =>
          match createWithin here bound disk parent with
          | (false, disk) => (false, disk)
          | (true, disk) =>
            match disk.createDirectory here path with
            | .created disk => (true, disk)
            | _ => (disk.isDirectory here path, disk)

/-- Creates a directory and the directories above it. -/
def createDirectories (disk : Disk) (here : Location) (path : Path) : Bool × Disk :=
  createWithin here (path.bytes.length + 1) disk path

/-- The spelling of a location as a path from the root. -/
def spell (location : Location) : Path :=
  ⟨Path.slash :: Path.unite location⟩

end Disk

end TemplateCode
