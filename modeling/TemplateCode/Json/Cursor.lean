import TemplateCode.Json.Fault

/-!
# Reading a text from left to right

A `Reader` goes through a text and keeps its place. A fault is placed before the next character, or
right after the first byte of it.
-/

namespace TemplateCode.Json

/-- The rest of a text and the place where it starts. -/
structure Cursor where
  mark : Mark := {}
  rest : List Char

namespace Cursor

/-- Moves past the characters at the head of which `p` holds. -/
def skipWhile (p : Char → Bool) (mark : Mark) : List Char → Cursor
  | [] => ⟨mark, []⟩
  | c :: cs => if p c then skipWhile p (mark.after c) cs else ⟨mark, c :: cs⟩

end Cursor

abbrev Reader := StateT Cursor (Except Fault)

namespace Reader

/-- Fails before the next character. -/
def failHere {α : Type} (problem : Problem) : Reader α := do
  throw ⟨problem, (← get).mark⟩

/-- Fails after the first byte of the next character, or at the end of the text. -/
def failNext {α : Type} (problem : Problem) : Reader α := do
  let cursor ← get
  match cursor.rest with
  | [] => throw ⟨problem, cursor.mark⟩
  | c :: _ => throw ⟨problem, cursor.mark.afterByte c⟩

/-- The next character. -/
def peek : Reader (Option Char) := do
  return (← get).rest.head?

/-- Moves past the next character. -/
def skip : Reader Unit :=
  modify fun cursor =>
    match cursor.rest with
    | [] => cursor
    | c :: rest => ⟨cursor.mark.after c, rest⟩

/-- Takes the characters at the head of which `p` holds. -/
def takeWhile (p : Char → Bool) : Reader (List Char) :=
  modifyGet fun cursor => (cursor.rest.takeWhile p, Cursor.skipWhile p cursor.mark cursor.rest)

/-- Moves past blanks, tabs and line breaks, and looks at what follows. -/
def peekPastBlank : Reader (Option Char) := do
  let _ ← takeWhile fun c => c = ' ' || c = '\n' || c = '\t' || c = '\r'
  peek

/-- The number of characters left, which bounds every repetition: each round takes one. -/
def bound : Reader Nat := do
  return (← get).rest.length + 1

end Reader

end TemplateCode.Json
