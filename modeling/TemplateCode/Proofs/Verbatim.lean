import TemplateCode.Project.Pipeline
import TemplateCode.Proofs.Forms

/-!
# Texts are copied from the template

On a tree that fits the template, every text of the template that is in the code is what stands there
between the ends of a range, letter by letter. Nothing is ever put in place of a text that is missing.

* `CopiedFrom`: what is said of code whose texts come from a template.
* `run_readOr`: what stands in for a missing text does not matter to a tree that fits.
* `code_copies_template`: what code is made of, from a tree, from a parsed template and from files.
-/

namespace TemplateCode

/-- Code whose texts come from a template: the texts that are read are there, every line is a statement of
a node of the tree or the end of a block, and no text is ever put in place of one that is missing. -/
structure CopiedFrom (template : String) (root : Node) (code : String) : Prop where
  sliced : ∀ part ∈ root.consulted, ∃ text, part.span.slice template = some text
  lines : ∃ lines : List Line, code = joinLines (lines.map Line.render) ∧
    ∀ line ∈ lines, root.StatesBelow template line.text
  unreplaced : ∀ fallback, code = ((emit (Span.readOr fallback template) id root []).run 0).text

section

variable {source : String} {root : Node}

theorem exists_slice_of_validate (h : root.validate source = .ok ()) :
    ∀ part ∈ root.consulted, ∃ text, part.span.slice source = some text := by
  intro part hpart
  have hfits := Span.fits_iff.1 (Node.fits_of_mem_consulted h hpart)
  rwa [Option.isNone_eq_false_iff, Option.isSome_iff_exists] at hfits

/-- **What stands in for a text that is missing does not matter**, since none is missing. -/
theorem run_readOr (h : root.validate source = .ok ()) (fallback : String) (seed : UInt64) :
    (emit (Span.readOr fallback source) id root []).run seed = root.fragment source seed := by
  have hsame : Node.SameTexts (Span.readOr fallback source) (Span.readIn source) root.consulted := by
    intro part hpart
    obtain ⟨text, htext⟩ := exists_slice_of_validate h part hpart
    unfold Span.readIn Span.readOr
    rw [htext, Option.getD_some, Option.getD_some]
  unfold Node.fragment
  rw [emit_congr_reading hsame]

theorem copiedFrom_of_validate (h : root.validate source = .ok ()) :
    CopiedFrom source root (root.code source) where
  sliced := exists_slice_of_validate h
  lines := ⟨(root.fragment source 0).lines, rfl, lines_fill h 0⟩
  unreplaced := fun fallback => by rw [run_readOr h]; rfl

end

theorem Template.code_eq_ok_iff {parse : Template.Parser} {markup code : String} :
    Template.code parse markup = .ok code ↔
      ∃ root, parse (Markup.strip markup) = .ok root ∧ root.validate (Markup.strip markup) = .ok () ∧
        code = root.code (Markup.strip markup) := by
  unfold Template.code
  dsimp only
  cases parse (Markup.strip markup) with
  | error fault => simp [bind, Except.bind]
  | ok root =>
    cases hvalid : root.validate (Markup.strip markup) with
    | error fault => simp [bind, Except.bind, hvalid]
    | ok _ => simp [bind, Except.bind, hvalid, pure, Except.pure, eq_comm]

theorem Pipeline.code_eq_ok_iff {settings : Settings} {markup json name code : String} :
    Pipeline.code settings markup json name = .ok code ↔
      ∃ root, Node.ofText json = .ok root ∧
        root.validate (Pipeline.preprocess settings markup) = .ok () ∧
        code = root.code (Pipeline.preprocess settings markup) := by
  unfold Pipeline.code Pipeline.prepare Pipeline.load Pipeline.validate
  dsimp only
  cases Node.ofText json with
  | error fault => simp [bind, Except.bind, Except.mapError]
  | ok root =>
    cases hvalid : root.validate (Pipeline.preprocess settings markup) with
    | error fault => simp [bind, Except.bind, Except.mapError, hvalid]
    | ok _ => simp [bind, Except.bind, Except.mapError, hvalid, pure, Except.pure, eq_comm]

/-- **The texts in code are copied from the template.** The code of a tree depends on the source through
the texts of the nodes that are consulted. If the tree has been validated, each of them has a text, so that
what stands in for a missing text does not matter. Whenever code is given for a template, be it by a parser
or from the text of a tree, its lines are statements in which every text is what stands in the stripped
template between the ends of a range. -/
theorem code_copies_template :
    (∀ (read read' : Reading) (root : Node) (seed : UInt64),
      (∀ part ∈ root.consulted, read part.span = read' part.span) →
        (emit read id root []).run seed = (emit read' id root []).run seed) ∧
    (∀ (source : String) (root : Node) (seed : UInt64), root.validate source = .ok () →
      (∀ part ∈ root.consulted, ∃ text, part.span.slice source = some text) ∧
        ∀ fallback, (emit (Span.readOr fallback source) id root []).run seed =
          root.fragment source seed) ∧
    (∀ (parse : Template.Parser) (markup code : String), Template.code parse markup = .ok code →
      ∃ root, parse (Markup.strip markup) = .ok root ∧ CopiedFrom (Markup.strip markup) root code) ∧
    ∀ (settings : Settings) (markup json name code : String),
      Pipeline.code settings markup json name = .ok code →
        ∃ root, Node.ofText json = .ok root ∧
          CopiedFrom (Pipeline.preprocess settings markup) root code := by
  refine ⟨fun read read' root seed h => ?_, fun source root seed h => ?_,
    fun parse markup code h => ?_, fun settings markup json name code h => ?_⟩
  · rw [emit_congr_reading h]
  · exact ⟨exists_slice_of_validate h, fun fallback => run_readOr h fallback seed⟩
  · obtain ⟨root, hparse, hvalid, rfl⟩ := Template.code_eq_ok_iff.1 h
    exact ⟨root, hparse, copiedFrom_of_validate hvalid⟩
  · obtain ⟨root, hload, hvalid, rfl⟩ := Pipeline.code_eq_ok_iff.1 h
    exact ⟨root, hload, copiedFrom_of_validate hvalid⟩

/-- A component that binds a pattern, and in it an await block that shows its error, over `é:abc`. -/
def quotingRoot : Node :=
  let text (start stop : Nat) : Node := { kind := .text, span := ⟨start, stop⟩ }
  { kind := .inlineComponent
    name := some "Card"
    fields := [
      .many .attributes [{ kind := .letDirective, name := some "item", fields := [.one .expression (text 0 2)] }],
      .many .children [
        { kind := .awaitBlock
          fields := [.one .expression (text 3 5), .one .error (text 5 6),
            .one .catchBranch
              { kind := .catchBlock
                fields := [.many .children [
                  { kind := .mustacheTag, fields := [.one .expression (text 5 6)] }]] }] }]] }

/-- The text of a tree for a read of the first two bytes. -/
def quotingText : String :=
  "\x7b\"type\":\"MustacheTag\",\"start\":0,\"end\":3,\"expression\":" ++
    "\x7b\"type\":\"Name\",\"start\":0,\"end\":2\x7d\x7d"

theorem code_copies_template_quotingRoot :
    (emit (fun span => if span.start = 5 then "c" else span.readIn "é:abc") id quotingRoot []).run 3 =
        (emit (Span.readIn "é:abc") id quotingRoot []).run 3 ∧
      quotingRoot.validate "é:abc" = .ok () ∧
      (emit (Span.readOr "?" "é:abc") id quotingRoot []).run 3 = quotingRoot.fragment "é:abc" 3 ∧
      (∃ code, Template.code (fun _ => .ok quotingRoot) "é:<style/>abc" = .ok code ∧
        CopiedFrom "é:abc" quotingRoot code) ∧
      ∃ root, Node.ofText quotingText = .ok root ∧ CopiedFrom "é:abc" root "let var$$0 = é;" := by
  have hvalid : quotingRoot.validate "é:abc" = .ok () := by decide +kernel
  have hstrip : Markup.strip "é:<style/>abc" = "é:abc" := by decide +kernel
  have hcode : Template.code (fun _ => .ok quotingRoot) "é:<style/>abc" =
      .ok (quotingRoot.code "é:abc") :=
    Template.code_eq_ok_iff.2 ⟨quotingRoot, rfl, hstrip.symm ▸ hvalid, by rw [hstrip]⟩
  have hread : (Pipeline.code {} "é:<style/>abc" quotingText "card").toOption =
      some "let var$$0 = é;" := by decide +kernel
  have hpipeline : Pipeline.code {} "é:<style/>abc" quotingText "card" = .ok "let var$$0 = é;" := by
    cases hresult : Pipeline.code {} "é:<style/>abc" quotingText "card" with
    | error failure => rw [hresult] at hread; cases hread
    | ok code => rw [hresult] at hread; cases hread; rfl
  obtain ⟨hagree, hfallback, htemplate, hfiles⟩ := code_copies_template
  obtain ⟨root, hroot, hcopied⟩ := htemplate _ _ _ hcode
  cases hroot
  obtain ⟨root, hload, hcopied'⟩ := hfiles _ _ _ _ _ hpipeline
  have hpreprocess : Pipeline.preprocess {} "é:<style/>abc" = "é:abc" := hstrip
  exact ⟨hagree _ _ quotingRoot 3 (by decide +kernel), hvalid, (hfallback _ _ 3 hvalid).2 "?",
    ⟨_, hcode, hstrip ▸ hcopied⟩, root, hload, hpreprocess ▸ hcopied'⟩

end TemplateCode
