import TemplateCode.Json.Fault
import TemplateCode.Span
import TemplateCode.Tree.Kind

/-!
# Faults

Why a tree is refused: it cannot be loaded, or its spans do not fit the source.
-/

namespace TemplateCode

/-- The two ends of a range. -/
inductive Bound where
  | start
  | stop
deriving DecidableEq, Repr

/-- The field that holds an end of a range. -/
def Bound.key : Bound → String
  | start => "start"
  | stop => "end"

/-- Why no tree can be made of a document. -/
inductive Malformation where
  /-- The text is not JSON. -/
  | json (fault : Json.Fault)
  /-- The value is not a record with a type tag. -/
  | untyped
  /-- A node lacks an end of its range. -/
  | missing (tag : String) (bound : Bound)
  /-- The range of a node ends before it starts. -/
  | inverted (tag : String) (start stop : Nat)
  /-- An external parser gives a reason of its own. -/
  | reported (reason : String)
deriving DecidableEq, Repr

def Malformation.message : Malformation → String
  | json fault => fault.message
  | untyped => "expected an object with a `type` tag"
  | missing tag bound => "`" ++ tag ++ "` node is missing a numeric `" ++ bound.key ++ "`"
  | inverted tag start stop =>
    "`" ++ tag ++ "` node has an inverted range " ++ Nat.repr start ++ ".." ++ Nat.repr stop
  | reported reason => reason

/-- Why a tree is refused. -/
inductive Fault where
  | malformed (cause : Malformation)
  /-- The range of a node does not fit the source, which has the given number of bytes. -/
  | misfit (kind : Kind) (span : Span) (sourceLength : Nat)
deriving DecidableEq, Repr

namespace Fault

def message : Fault → String
  | malformed cause => "Malformed template AST: " ++ cause.message
  | misfit kind span sourceLength =>
    "`" ++ kind.tag ++ "` node range " ++ Nat.repr span.start ++ ".." ++ Nat.repr span.stop ++
      " does not fit a " ++ Nat.repr sourceLength ++ "-byte source"

/-- The name of the class of a fault. -/
def code : Fault → String
  | malformed _ => "plainmark::ast"
  | misfit _ _ _ => "plainmark::span"

/-- The part of the source that a fault points to. It never lies beyond the end. -/
def label? : Fault → Option Span
  | malformed _ => none
  | misfit _ span sourceLength => some (span.clamp sourceLength)

end Fault

end TemplateCode
