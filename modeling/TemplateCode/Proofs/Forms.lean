import TemplateCode.Proofs.Consulted
import TemplateCode.Proofs.Script

/-!
# Forms of statements

Code is put together from words, names and numbers, and from texts of the source. Which statements a node
writes is said here by a table of forms, and every line of code is one of them, filled in.

* `Kind.forms`: the statements that a node of a kind writes, as lists of pieces.
* `Node.Copied`: a text that is copied from the source, `Fills`: a statement of a given form.
* `Edit.Writes`: the texts that an operation can write, `Code.mem_lines_applyAll`: nothing else is written.
* `lines_fill`: every line of the code of a tree that fits is a statement of one of its nodes.
-/

namespace TemplateCode

/-- What a statement is put together from. -/
inductive Piece where
  /-- A word of the language of the code. -/
  | word (text : String)
  /-- The number of a synthetic name. -/
  | number
  /-- The name of the node. -/
  | label
  /-- The name of one of the identifiers that the node lists. -/
  | identifier
  /-- The text of the first node in a slot. -/
  | copy (slot : Slot)
  /-- The names that the node binds, with commas between them. -/
  | params
deriving DecidableEq, Repr

/-- The declaration of a synthetic variable. -/
def declarationForm (initializer : List Piece) : List Piece :=
  [.word "let var$$", .number, .word " = "] ++ initializer ++ [.word ";"]

/-- The head of a synthetic function. -/
def scopeForm : List Piece :=
  [.word "function fn$$", .number, .word "(", .params, .word ") \x7b"]

/-- The head of a block for a condition. -/
def conditionForm (word : String) : List Piece :=
  [.word (word ++ " ("), .copy .expression, .word ") \x7b"]

/-- The call of the function of a directive. -/
def callForm (arguments : List Piece) : List Piece :=
  [.label, .word "(document.body"] ++ arguments.flatMap (fun argument => [.word ", ", argument]) ++
    [.word ");"]

/-- The statements that a node of a kind writes, apart from the ends of blocks. -/
def Kind.forms : Kind → List (List Piece)
  | .inlineComponent =>
    [[.word "new ", .label, .word "();"], [.word "new ", .copy .expression, .word "();"], scopeForm]
  | .element | .slotTemplate => [scopeForm]
  | .ifBlock => [conditionForm "if", conditionForm "else if"]
  | .elseBlock => [[.word "else \x7b"]]
  | .eachBlock =>
    [conditionForm "if",
      [.word "for (const ", .copy .context, .word " of ", .copy .expression, .word ") \x7b"]]
  | .keyBlock => [conditionForm "/*key*/ if"]
  | .awaitBlock =>
    [[.word "try \x7b"], [.word "await ", .copy .expression, .word ";"],
      [.word "const ", .copy .value, .word " = await ", .copy .expression, .word ";"],
      [.word "catch \x7b"], [.word "catch (", .copy .error, .word ") \x7b"], [.word "catch \x7b\x7d"]]
  | .mustacheTag | .rawMustacheTag | .attributeShorthand | .binding | .eventHandler =>
    [declarationForm [.copy .expression]]
  | .spread => [declarationForm [.word "\x7b ...", .copy .expression, .word " \x7d"]]
  | .debugTag => [declarationForm [.identifier]]
  | .classDirective =>
    [declarationForm [.copy .expression, .word " ? '", .label, .word "' : null"],
      declarationForm [.label, .word " ? '", .label, .word "' : null"]]
  | .action | .transition => [callForm [], callForm [.copy .expression]]
  | .animation => [callForm [.word animationRects], callForm [.word animationRects, .copy .expression]]
  | _ => []

namespace Node

/-- The text of the first node in a slot is what stands in the source between the ends of its range. It is
empty if there is no node. -/
inductive Copied (source : String) (node : Node) (slot : Slot) : String → Prop
  | absent (h : node.child? slot = none) : Copied source node slot ""
  | present {part : Node} {text a b : String} (h : node.child? slot = some part)
      (hsource : source = a ++ text ++ b) (hstart : part.span.start = a.utf8ByteSize)
      (hstop : part.span.stop = a.utf8ByteSize + text.utf8ByteSize) : Copied source node slot text

/-- The name that a directive binds: its pattern, or its own name if it has no pattern. -/
def Binds (source : String) (directive : Node) (name : String) : Prop :=
  directive.Copied source .expression name ∧ name ≠ "" ∨
    directive.Copied source .expression "" ∧ name = directive.label

end Node

/-- A text for a piece of a statement of a node. -/
inductive Piece.Gives (source : String) (node : Node) : Piece → String → Prop
  | word (text : String) : Gives source node (.word text) text
  | number (n : Nat) : Gives source node .number (Nat.repr n)
  | label : Gives source node .label node.label
  | identifier {part : Node} (h : part ∈ node.nodesIn .identifiers) :
      Gives source node .identifier part.label
  | copy {slot : Slot} {text : String} (h : node.Copied source slot text) :
      Gives source node (.copy slot) text
  | params {names : List String} (h : List.Forall₂ (Node.Binds source) node.letDirectives names) :
      Gives source node .params (", ".intercalate names)

/-- A statement of the given form. -/
def Fills (source : String) (node : Node) (form : List Piece) (statement : String) : Prop :=
  ∃ texts, List.Forall₂ (Piece.Gives source node) form texts ∧ statement = String.join texts

/-- A statement that a node writes. -/
def Node.States (source : String) (node : Node) (statement : String) : Prop :=
  ∃ form ∈ node.kind.forms, Fills source node form statement

/-! ## What an operation writes -/

/-- A text that an operation can write, under some number for a synthetic name. -/
def Edit.Writes {ι : Type} (edit : Edit ι) (statement : String) : Prop :=
  match edit with
  | .append text => text ≠ "" ∧ statement = text
  | .declare initializer =>
    initializer ≠ "" ∧ ∃ n, statement = "let " ++ ("var" ++ "$$" ++ Nat.repr n) ++ " = " ++ initializer ++ ";"
  | .openBlock header _ => statement = header ++ " \x7b"
  | .openScope params _ => ∃ n, statement =
      "function " ++ ("fn" ++ "$$" ++ Nat.repr n) ++ "(" ++ ", ".intercalate params ++ ")" ++ " \x7b"
  | .close _ => statement = "\x7d"
  | .splice fragment => ∃ line ∈ fragment.lines, statement = line.text

namespace Code

variable {ι : Type} {code : Code ι} {line : Line}

theorem mem_lines_write {role : Role} {text : String} (h : line ∈ (code.write role text).lines) :
    line ∈ code.lines ∨ text ≠ "" ∧ line.text = text := by
  rw [lines_write, List.mem_append] at h
  rcases h with h | h
  · exact Or.inl h
  · split at h
    · cases h
    · rename_i htext
      rw [List.mem_singleton] at h
      exact Or.inr ⟨htext, congrArg Line.text h⟩

theorem mem_lines_closeInnermost (h : line ∈ code.closeInnermost.lines) :
    line ∈ code.lines ∨ line.text = "\x7d" := by
  unfold closeInnermost at h
  split at h
  · exact Or.inl h
  · exact (mem_lines_write h).imp id And.right

theorem mem_lines_splice {fragment : Fragment} (h : line ∈ (code.splice fragment).lines) :
    line ∈ code.lines ∨ ∃ spliced ∈ fragment.lines, line.text = spliced.text := by
  rw [lines_splice, List.mem_append] at h
  rcases h with h | h
  · exact Or.inl h
  · obtain ⟨spliced, hspliced, rfl⟩ := List.mem_map.1 h
    exact Or.inr ⟨spliced, (List.mem_filter.1 hspliced).1, rfl⟩

variable [DecidableEq ι]

theorem mem_lines_closeOwned {owner : ι} (h : line ∈ (code.closeOwned owner).lines) :
    line ∈ code.lines ∨ line.text = "\x7d" := by
  unfold closeOwned at h
  generalize (code.frames.takeWhile fun frame => decide (frame = some owner)) = closed at h
  induction closed generalizing code with
  | nil => exact Or.inl h
  | cons frame closed ih =>
    rcases ih h with h | h
    · exact mem_lines_closeInnermost h
    · exact Or.inr h

/-- **An operation adds only what it writes.** -/
theorem mem_lines_apply {edit : Edit ι} (h : line ∈ (code.apply edit).lines) :
    line ∈ code.lines ∨ edit.Writes line.text := by
  cases edit with
  | append text => exact mem_lines_write h
  | declare initializer =>
    rw [apply, declare] at h
    split at h
    · exact Or.inl h
    · rename_i hinitializer
      exact (mem_lines_write h).imp id fun hwritten => ⟨hinitializer, _, hwritten.2⟩
  | openBlock header owner =>
    have hline : line ∈ (code.write .opener (header ++ " \x7b")).lines := h
    exact (mem_lines_write hline).imp id And.right
  | openScope params owner =>
    have hline : line ∈ (code.count.write .scope ("function " ++ code.nextName "fn" ++ "(" ++
      ", ".intercalate params ++ ")" ++ " \x7b")).lines := h
    exact (mem_lines_write hline).imp id fun hwritten => ⟨_, hwritten.2⟩
  | close owner =>
    cases owner with
    | none => exact mem_lines_closeInnermost h
    | some owner => exact mem_lines_closeOwned h
  | splice fragment => exact mem_lines_splice h

theorem mem_lines_applyAll {edits : List (Edit ι)} (h : line ∈ (code.applyAll edits).lines) :
    line ∈ code.lines ∨ ∃ edit ∈ edits, edit.Writes line.text := by
  induction edits generalizing code with
  | nil => exact Or.inl h
  | cons edit edits ih =>
    rcases ih h with h | ⟨edit', hedit', hwrites⟩
    · exact (mem_lines_apply h).imp id fun hwrites => ⟨edit, List.mem_cons_self, hwrites⟩
    · exact Or.inr ⟨edit', List.mem_cons_of_mem _ hedit', hwrites⟩

end Code

/-! ## What a node writes -/

namespace Node

variable {source : String} {node : Node}

theorem copied_of_fits {slot : Slot} (h : ∀ part, node.child? slot = some part → part.span.Fits source) :
    node.Copied source slot (node.textIn (Span.readIn source) slot) := by
  unfold textIn
  cases hchild : node.child? slot with
  | none => exact .absent hchild
  | some part =>
    have hslice := Span.fits_iff.1 (h part hchild)
    rw [Option.isNone_eq_false_iff, Option.isSome_iff_exists] at hslice
    obtain ⟨text, htext⟩ := hslice
    obtain ⟨a, b, hsource, hstart, hstop⟩ := Span.slice_eq_some_iff.1 htext
    have hread : part.span.readIn source = text := by
      unfold Span.readIn Span.readOr
      rw [htext, Option.getD_some]
    dsimp only
    rw [hread]
    exact .present hchild hsource hstart hstop

/-- All nodes of a tree fit a source. -/
def AllFit (source : String) (root : Node) : Prop :=
  ∀ node ∈ root.preorder, node.span.Fits source

theorem allFit_of_validate {root : Node} (h : root.validate source = .ok ()) : root.AllFit source := by
  intro node hnode
  obtain ⟨address, haddress⟩ := mem_preorder_iff_at?.1 hnode
  exact validate_eq_ok_iff.1 h address node haddress

theorem AllFit.copied (h : node.AllFit source) (slot : Slot) :
    node.Copied source slot (node.textIn (Span.readIn source) slot) :=
  copied_of_fits fun part hpart => h part (mem_preorder_of_child? hpart)

theorem AllFit.binds (h : node.AllFit source) :
    List.Forall₂ (Binds source) node.letDirectives (node.boundNames (Span.readIn source)) := by
  unfold boundNames
  rw [List.forall₂_map_right_iff, List.forall₂_same]
  intro directive hdirective
  have hcopied : directive.Copied source .expression (directive.expression (Span.readIn source)) :=
    copied_of_fits fun part hpart => h part <|
      mem_preorder_of_mem_nodesIn (List.mem_filter.1 hdirective).1 (mem_preorder_of_child? hpart)
  unfold orIfEmpty
  split
  · rename_i hempty
    exact Or.inr ⟨hempty ▸ hcopied, rfl⟩
  · rename_i hpattern
    exact Or.inl ⟨hcopied, hpattern⟩

end Node

theorem intercalate_cons (first : String) (rest : List String) :
    ", ".intercalate (first :: rest) = first ++ String.join (rest.flatMap fun text => [", ", text]) := by
  induction rest generalizing first with
  | nil => simp
  | cons second rest ih =>
    rw [String.intercalate_cons_cons, ih]
    simp [String.append_assoc]

namespace Fills

variable {source : String} {node : Node}

theorem condition {word text : String} (h : node.Copied source .expression text) :
    Fills source node (conditionForm word) (word ++ " (" ++ text ++ ")" ++ " \x7b") :=
  ⟨_, .cons (.word _) (.cons (.copy h) (.cons (.word _) .nil)), by simp [String.append_assoc]⟩

theorem declaration {initializer : List Piece} {text : String} (h : Fills source node initializer text)
    (n : Nat) :
    Fills source node (declarationForm initializer)
      ("let " ++ ("var" ++ "$$" ++ Nat.repr n) ++ " = " ++ text ++ ";") := by
  obtain ⟨texts, htexts, rfl⟩ := h
  have hword : "let var$$" = "let " ++ ("var" ++ "$$") := rfl
  refine ⟨"let var$$" :: Nat.repr n :: " = " :: (texts ++ [";"]), ?_, ?_⟩
  · exact .cons (.word _) (.cons (.number n) (.cons (.word _)
      (List.rel_append htexts (.cons (.word _) .nil))))
  · rw [hword]
    simp only [String.join_cons, String.join_append, String.join_nil, String.append_assoc,
      String.append_empty]

theorem scope {names : List String} (h : List.Forall₂ (Node.Binds source) node.letDirectives names)
    (n : Nat) :
    Fills source node scopeForm
      ("function " ++ ("fn" ++ "$$" ++ Nat.repr n) ++ "(" ++ ", ".intercalate names ++ ")" ++ " \x7b") := by
  have hword : "function fn$$" = "function " ++ ("fn" ++ "$$") := rfl
  have hbrace : ") \x7b" = ")" ++ " \x7b" := rfl
  refine ⟨_, .cons (.word _) (.cons (.number n) (.cons (.word _) (.cons (.params h)
    (.cons (.word _) .nil)))), ?_⟩
  rw [hword, hbrace]
  simp only [String.join_cons, String.join_nil, String.append_assoc, String.append_empty]

theorem copied {slot : Slot} {text : String} (h : node.Copied source slot text) :
    Fills source node [.copy slot] text :=
  ⟨[text], .cons (.copy h) .nil, by simp⟩

/-- A call has the arguments that are not empty. -/
theorem call {given : List Piece} {arguments texts : List String}
    (hkept : arguments.filter (· ≠ "") = texts) (h : List.Forall₂ (Piece.Gives source node) given texts) :
    Fills source node (callForm given) (directiveCall node.label arguments) := by
  have hgiven : List.Forall₂ (Piece.Gives source node)
      (given.flatMap fun argument => [.word ", ", argument]) (texts.flatMap fun text => [", ", text]) := by
    clear hkept
    induction h with
    | nil => exact .nil
    | cons hfirst _ ih => exact .cons (.word _) (.cons hfirst ih)
  have hword : "(document.body" = "(" ++ directiveTarget := rfl
  refine ⟨node.label :: "(document.body" :: ((texts.flatMap fun text => [", ", text]) ++ [");"]), ?_, ?_⟩
  · exact .cons .label (.cons (.word _) (List.rel_append hgiven (.cons (.word _) .nil)))
  · unfold directiveCall
    rw [hkept, intercalate_cons, hword]
    simp only [String.join_cons, String.join_append, String.join_nil, String.append_assoc,
      String.append_empty]

end Fills

namespace Node

variable {ι : Type} {source : String} {node : Node}

/-- A node binds names by a scope. -/
theorem AllFit.fills_bindingScope (h : node.AllFit source) {owner : ι} {edit : Edit ι}
    (hedit : edit ∈ bindingScope (Span.readIn source) node owner) {statement : String}
    (hwrites : edit.Writes statement) : Fills source node scopeForm statement := by
  unfold bindingScope at hedit
  split at hedit
  · cases hedit
  · rw [List.mem_singleton] at hedit
    subst hedit
    obtain ⟨n, rfl⟩ := hwrites
    exact .scope h.binds n

/-- A condition, and the end of the branch before it. -/
theorem AllFit.states_ifBlock (h : node.AllFit source) {owner : ι} {chained : Bool} {edit : Edit ι}
    (hedit : edit ∈ ifBlock (Span.readIn source) node owner chained) {statement : String}
    (hwrites : edit.Writes statement) :
    statement = "\x7d" ∨ ∃ form ∈ Kind.ifBlock.forms, Fills source node form statement := by
  have hexpression := h.copied .expression
  unfold ifBlock at hedit
  dsimp only at hedit
  split at hedit
  · rcases List.mem_pair.1 hedit with rfl | rfl
    · exact Or.inl hwrites
    · obtain rfl := hwrites
      exact Or.inr ⟨_, List.mem_cons_of_mem _ List.mem_cons_self, .condition hexpression⟩
  · obtain rfl := List.mem_singleton.1 hedit
    obtain rfl := hwrites
    exact Or.inr ⟨_, List.mem_cons_self, .condition hexpression⟩

/-- An alternative, and the ends of what comes before it. -/
theorem states_elseBlock {owner : ι} {parent : Option Kind} {edit : Edit ι}
    (hedit : edit ∈ elseBlock node owner parent) {statement : String} (hwrites : edit.Writes statement) :
    statement = "\x7d" ∨ ∃ form ∈ Kind.elseBlock.forms, Fills source node form statement := by
  unfold elseBlock at hedit
  split at hedit
  · cases hedit
  · have hcases : edit = .close none ∨ edit = .openBlock "else" (some owner) := by
      split at hedit
      · simpa using hedit
      · simpa using hedit
    rcases hcases with rfl | rfl
    · exact Or.inl hwrites
    · obtain rfl := hwrites
      exact Or.inr ⟨_, List.mem_cons_self, _, .cons (.word _) .nil, by simp⟩

/-- A loop, and the guard before it. -/
theorem AllFit.states_eachBlock (h : node.AllFit source) {owner : ι} {edit : Edit ι}
    (hedit : edit ∈ eachBlock (Span.readIn source) node owner) {statement : String}
    (hwrites : edit.Writes statement) :
    statement = "\x7d" ∨ ∃ form ∈ Kind.eachBlock.forms, Fills source node form statement := by
  have hexpression : node.Copied source .expression (node.expression (Span.readIn source)) :=
    h.copied .expression
  have hcontext := h.copied .context
  unfold eachBlock at hedit
  dsimp only at hedit
  rcases List.mem_append.1 hedit with hguard | hloop
  · split at hguard
    · obtain rfl := List.mem_singleton.1 hguard
      obtain rfl := hwrites
      exact Or.inr ⟨_, List.mem_cons_self, .condition hexpression⟩
    · cases hguard
  · obtain rfl := List.mem_singleton.1 hloop
    obtain rfl := hwrites
    refine Or.inr ⟨_, List.mem_cons_of_mem _ List.mem_cons_self, _, .cons (.word _)
      (.cons (.copy hcontext) (.cons (.word _) (.cons (.copy hexpression) (.cons (.word _) .nil)))), ?_⟩
    simp [String.append_assoc]

/-- **What a node writes when it is entered** are statements of its forms, and ends of blocks. -/
theorem AllFit.states_opening (h : node.AllFit source) {owner : ι} {parent : Option Kind}
    {chained : Bool} {edit : Edit ι}
    (hedit : edit ∈ opening (Span.readIn source) node owner parent chained) {statement : String}
    (hwrites : edit.Writes statement) : statement = "\x7d" ∨ node.States source statement := by
  have hexpression : node.Copied source .expression (node.expression (Span.readIn source)) :=
    h.copied .expression
  revert hedit
  unfold opening States
  cases node.kind with
  | inlineComponent =>
    intro hedit
    rcases List.mem_cons.1 hedit with rfl | hscope
    · obtain ⟨-, rfl⟩ := hwrites
      unfold component
      split
      · exact Or.inr ⟨_, List.mem_cons_of_mem _ List.mem_cons_self, _,
          .cons (.word _) (.cons (.copy hexpression) (.cons (.word _) .nil)), by
            simp [String.append_assoc]⟩
      · exact Or.inr ⟨_, List.mem_cons_self, _,
          .cons (.word _) (.cons .label (.cons (.word _) .nil)), by simp [String.append_assoc]⟩
    · exact Or.inr ⟨scopeForm, by simp [Kind.forms], h.fills_bindingScope hscope hwrites⟩
  | element =>
    intro hedit
    dsimp only at hedit
    split at hedit
    · exact Or.inr ⟨scopeForm, List.mem_cons_self, h.fills_bindingScope hedit hwrites⟩
    · cases hedit
  | slotTemplate =>
    intro hedit
    exact Or.inr ⟨scopeForm, List.mem_cons_self, h.fills_bindingScope hedit hwrites⟩
  | ifBlock =>
    intro hedit
    exact h.states_ifBlock hedit hwrites
  | elseBlock =>
    intro hedit
    exact states_elseBlock hedit hwrites
  | eachBlock =>
    intro hedit
    exact h.states_eachBlock hedit hwrites
  | keyBlock =>
    intro hedit
    obtain rfl := List.mem_singleton.1 hedit
    obtain rfl := hwrites
    exact Or.inr ⟨_, List.mem_cons_self, .condition hexpression⟩
  | mustacheTag | rawMustacheTag | attributeShorthand | binding | eventHandler =>
    intro hedit
    obtain rfl := List.mem_singleton.1 hedit
    obtain ⟨-, n, rfl⟩ := hwrites
    exact Or.inr ⟨_, List.mem_cons_self, .declaration (.copied hexpression) n⟩
  | spread =>
    intro hedit
    dsimp only at hedit
    split at hedit
    · cases hedit
    · obtain rfl := List.mem_singleton.1 hedit
      obtain ⟨-, n, rfl⟩ := hwrites
      refine Or.inr ⟨_, List.mem_cons_self, .declaration ⟨_, .cons (.word _)
        (.cons (.copy hexpression) (.cons (.word _) .nil)), ?_⟩ n⟩
      simp [String.append_assoc]
  | debugTag =>
    intro hedit
    obtain ⟨part, hpart, rfl⟩ := List.mem_map.1 hedit
    obtain ⟨-, n, rfl⟩ := hwrites
    exact Or.inr ⟨_, List.mem_cons_self,
      .declaration ⟨_, .cons (.identifier hpart) .nil, by simp⟩ n⟩
  | classDirective =>
    intro hedit
    obtain rfl := List.mem_singleton.1 hedit
    obtain ⟨-, n, rfl⟩ := hwrites
    unfold classCondition orIfEmpty
    split
    · refine Or.inr ⟨_, List.mem_cons_of_mem _ List.mem_cons_self, .declaration ⟨_, .cons .label
        (.cons (.word _) (.cons .label (.cons (.word _) .nil))), ?_⟩ n⟩
      simp [String.append_assoc]
    · refine Or.inr ⟨_, List.mem_cons_self, .declaration ⟨_, .cons (.copy hexpression)
        (.cons (.word _) (.cons .label (.cons (.word _) .nil))), ?_⟩ n⟩
      simp [String.append_assoc]
  | action | transition =>
    intro hedit
    obtain rfl := List.mem_singleton.1 hedit
    obtain ⟨-, rfl⟩ := hwrites
    by_cases hempty : node.expression (Span.readIn source) = ""
    · exact Or.inr ⟨_, List.mem_cons_self, .call (by simp [hempty]) .nil⟩
    · exact Or.inr ⟨_, List.mem_cons_of_mem _ List.mem_cons_self,
        .call (by simp [hempty]) (.cons (.copy hexpression) .nil)⟩
  | animation =>
    intro hedit
    obtain rfl := List.mem_singleton.1 hedit
    obtain ⟨-, rfl⟩ := hwrites
    have hrects : animationRects ≠ "" := by decide
    by_cases hempty : node.expression (Span.readIn source) = ""
    · exact Or.inr ⟨_, List.mem_cons_self,
        .call (by simp [hempty, hrects]) (.cons (.word _) .nil)⟩
    · exact Or.inr ⟨_, List.mem_cons_of_mem _ List.mem_cons_self,
        .call (by simp [hempty, hrects]) (.cons (.word _) (.cons (.copy hexpression) .nil))⟩
  | _ => exact nofun

/-- So are the statements of an await block itself. -/
theorem AllFit.states_await (h : node.AllFit source) (hkind : node.kind = .awaitBlock)
    {statement : String}
    (hstatement : statement ∈ ["try \x7b", awaitStatement (Span.readIn source) node,
      catchHeader (Span.readIn source) node ++ " \x7b", "catch \x7b\x7d"]) :
    node.States source statement := by
  have hexpression : node.Copied source .expression (node.expression (Span.readIn source)) :=
    h.copied .expression
  unfold States
  rw [hkind]
  simp only [List.mem_cons, List.not_mem_nil, or_false] at hstatement
  rcases hstatement with rfl | rfl | rfl | rfl
  · exact ⟨[.word "try \x7b"], by simp [Kind.forms], _, .cons (.word _) .nil, by simp⟩
  · unfold awaitStatement
    dsimp only
    split
    · exact ⟨[.word "await ", .copy .expression, .word ";"], by simp [Kind.forms], _,
        .cons (.word _) (.cons (.copy hexpression) (.cons (.word _) .nil)), by
          simp [String.append_assoc]⟩
    · exact ⟨[.word "const ", .copy .value, .word " = await ", .copy .expression, .word ";"], by
        simp [Kind.forms], _, .cons (.word _) (.cons (.copy (h.copied .value)) (.cons (.word _)
          (.cons (.copy hexpression) (.cons (.word _) .nil)))), by simp [String.append_assoc]⟩
  · unfold catchHeader
    dsimp only
    split
    · exact ⟨[.word "catch \x7b"], by simp [Kind.forms], _, .cons (.word _) .nil, by simp⟩
    · exact ⟨[.word "catch (", .copy .error, .word ") \x7b"], by simp [Kind.forms], _,
        .cons (.word _) (.cons (.copy (h.copied .error)) (.cons (.word _) .nil)), by
          simp [String.append_assoc]⟩
  · exact ⟨[.word "catch \x7b\x7d"], by simp [Kind.forms], _, .cons (.word _) .nil, by simp⟩

/-! ## What a tree writes -/

/-- A statement of a node of a tree, or the end of a block. -/
def StatesBelow (source : String) (root : Node) (statement : String) : Prop :=
  statement = "\x7d" ∨ ∃ node ∈ root.preorder, node.States source statement

theorem StatesBelow.of_held {root : Node} {here : Position} {part : Position × Node}
    (hpart : part ∈ root.held here) {statement : String} (h : part.2.StatesBelow source statement) :
    root.StatesBelow source statement := by
  rcases h with hend | ⟨node, hnode, hstates⟩
  · exact Or.inl hend
  · obtain ⟨-, field, hfield, hbelow⟩ := mem_held hpart
    exact Or.inr ⟨node, mem_preorder.2 (Or.inr ⟨field, hfield, part.2, hbelow, hnode⟩), hstates⟩

theorem AllFit.of_held {root : Node} (h : root.AllFit source) {here : Position} {part : Position × Node}
    (hpart : part ∈ root.held here) : part.2.AllFit source := by
  intro node hnode
  obtain ⟨-, field, hfield, hbelow⟩ := mem_held hpart
  exact h node (mem_preorder.2 (Or.inr ⟨field, hfield, part.2, hbelow, hnode⟩))

end Node

section

variable {ι : Type} [DecidableEq ι]

theorem exists_of_mem_run {script : Script ι} {seed : UInt64} {line : Line}
    (h : line ∈ (script.run seed).lines) :
    ∃ edit ∈ script none (Code.start seed), edit.Writes line.text := by
  rcases Code.mem_lines_applyAll h with hstart | hwritten
  · cases hstart
  · exact hwritten

omit [DecidableEq ι] in
/-- What the operations of an await block write: statements of its own and ends of blocks. -/
theorem writes_awaitSteps {α : Type} {read : Reading} {node : Node} {below : List (Slot × List α)}
    {edit : Edit ι} (h : .edit edit ∈ awaitSteps read node below) {statement : String}
    (hwrites : edit.Writes statement) :
    statement = "\x7d" ∨
      statement ∈ ["try \x7b", awaitStatement read node, catchHeader read node ++ " \x7b",
        "catch \x7b\x7d"] := by
  unfold awaitSteps at h
  rw [List.mem_append] at h
  rcases h with h | h
  · simp only [List.mem_cons, List.not_mem_nil, or_false, AwaitStep.edit.injEq, reduceCtorEq,
      false_or] at h
    rcases h with rfl | rfl | rfl
    · exact Or.inr (by simp [show statement = "try \x7b" from hwrites])
    · exact Or.inr (by simp [hwrites.2])
    · exact Or.inl hwrites
  · cases hbranch : catchBranch node below with
    | none =>
      rw [hbranch] at h
      cases List.mem_singleton.1 h
      exact Or.inr (by simp [hwrites.2])
    | some branch =>
      rw [hbranch] at h
      simp only [List.mem_cons, List.not_mem_nil, or_false, AwaitStep.edit.injEq, reduceCtorEq,
        false_or] at h
      rcases h with rfl | rfl
      · exact Or.inr (by simp [show statement = catchHeader read node ++ " \x7b" from hwrites])
      · exact Or.inl hwrites

/-- **Whatever a tree writes is a statement of one of its nodes**, if all of them fit. -/
theorem Node.AllFit.states_script {source : String} {root : Node} (h : root.AllFit source)
    (identify : Position → ι) (here : Position) {parent : Option (Parent ι)} {code : Code ι}
    {edit : Edit ι} (hedit : edit ∈ script (Span.readIn source) identify root here parent code)
    {statement : String} (hwrites : edit.Writes statement) : root.StatesBelow source statement := by
  induction here, root using Node.located_induction generalizing parent code edit statement with
  | step here node ih =>
    have hbelow : ∀ part ∈ node.held here, ∀ {parent code edit statement},
        edit ∈ script (Span.readIn source) identify part.2 part.1 parent code →
        edit.Writes statement → node.StatesBelow source statement :=
      fun part hpart _ _ _ _ hedit hwrites =>
        (ih part hpart (h.of_held hpart) hedit hwrites).of_held hpart
    have hown : ∀ {statement}, node.States source statement → node.StatesBelow source statement :=
      fun hstates => Or.inr ⟨node, node.mem_preorder_self, hstates⟩
    rw [script_eq] at hedit
    obtain ⟨step, hstep, code', hedit⟩ := Code.mem_sequence hedit
    rcases List.mem_append.1 hstep with hstep | hstep
    · unfold nodeSteps at hstep
      split at hstep
      · rename_i hkind
        rw [awaitSteps_mapBelow, List.map_map] at hstep
        obtain ⟨awaitStep, hmem, rfl⟩ := List.mem_map.1 hstep
        rcases awaitStep with operation | (_ | part)
        · obtain rfl := List.mem_singleton.1 hedit
          exact (writes_awaitSteps hmem hwrites).imp id fun hstatement =>
            ⟨node, node.mem_preorder_self, h.states_await hkind hstatement⟩
        · cases hedit
        · -- a branch is one of the nodes below
          obtain rfl := List.mem_singleton.1 hedit
          obtain ⟨line, hline, rfl⟩ := hwrites
          obtain ⟨edit', hedit', hwrites'⟩ := exists_of_mem_run hline
          exact hbelow part (mem_of_mem_awaitSteps hmem) hedit' hwrites'
      · rcases List.mem_cons.1 hstep with rfl | hstep
        · exact (h.states_opening hedit hwrites).imp id fun hstates =>
            ⟨node, node.mem_preorder_self, hstates⟩
        · rw [walked_mapBelow, List.map_map] at hstep
          obtain ⟨visit, hvisit, rfl⟩ := List.mem_map.1 hstep
          exact hbelow visit.2 (snd_mem_of_mem_walked hvisit) hedit hwrites
    · obtain rfl := List.mem_singleton.1 hstep
      obtain rfl := List.mem_singleton.1 hedit
      exact Or.inl hwrites

end

/-- **Every line of the code of a tree that fits is a statement of one of its nodes**, in which all texts
are copied from the source, or the end of a block. -/
theorem lines_fill {source : String} {root : Node} (h : root.validate source = .ok ()) (seed : UInt64) :
    ∀ line ∈ (root.fragment source seed).lines, root.StatesBelow source line.text := by
  intro line hline
  have hemit := emit_eq_applyAll (Span.readIn source) id root [] none (Code.start seed)
  have hwritten : line ∈ ((Code.start seed).applyAll
      (script (Span.readIn source) id root [] none (Code.start seed))).lines := hemit ▸ hline
  rcases Code.mem_lines_applyAll hwritten with hstart | ⟨edit, hedit, hwrites⟩
  · cases hstart
  · exact (Node.allFit_of_validate h).states_script id [] hedit hwrites

end TemplateCode
