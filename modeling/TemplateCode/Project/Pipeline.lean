import TemplateCode.Code.Emit
import TemplateCode.Markup.Strip
import TemplateCode.Project.Failure
import TemplateCode.Tree.Listing
import TemplateCode.Tree.Load

/-!
# From texts to code

A template is stripped, parsed, and turned into code or listed.

* `Template.code` and `Template.listing` use a parser that the caller brings.
* `Pipeline.code` and `Pipeline.listing` take the steps from the text of a template and the text of its
  tree. The template has a name, by which a failure speaks of it.
-/

namespace TemplateCode

namespace Template

/-- A parser of stripped templates. -/
abbrev Parser := String → Except Fault Node

/-- The code for a template. -/
def code (parse : Parser) (markup : String) : Except Fault String := do
  let template := Markup.strip markup
  let root ← parse template
  root.validate template
  return root.code template

/-- The listing of the tree of a template. Spans are not looked at. -/
def listing (parse : Parser) (markup : String) : Except Fault String := do
  let root ← parse (Markup.strip markup)
  return root.trace

end Template

namespace Pipeline

/-- The text of a template as its parser gets it. -/
def preprocess (settings : Settings) (markup : String) : String :=
  if settings.stripTags then Markup.strip markup else markup

/-- Loads the tree of a template. -/
def load (json : String) : Except Failure Node :=
  (Node.ofText json).mapError fun _ => .rejected

/-- Checks that a tree fits its template. -/
def validate (root : Node) (template name : String) : Except Failure Unit :=
  (root.validate template).mapError fun _ => .mismatched name

/-- The template and its tree, if they fit. -/
def prepare (settings : Settings) (markup json name : String) : Except Failure (String × Node) := do
  let template := preprocess settings markup
  let root ← load json
  validate root template name
  return (template, root)

/-- The code for a template. -/
def code (settings : Settings) (markup json name : String) : Except Failure String := do
  let (template, root) ← prepare settings markup json name
  return root.code template

/-- The listing of the tree of a template. -/
def listing (settings : Settings) (markup json name : String) : Except Failure String := do
  let (_, root) ← prepare settings markup json name
  return root.trace

end Pipeline

end TemplateCode
