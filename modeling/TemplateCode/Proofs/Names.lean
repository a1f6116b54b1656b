import TemplateCode.Proofs.Indentation

/-!
# Synthetic names

A tree reads expressions and binds names. Each read becomes a synthetic variable and each scope of
bound names a synthetic function; they share one counter, which goes on through the branches that are
generated apart.

* `Node.entries`: what a tree reads and binds, by recursion on the tree alone.
* `Code.Issues`: the lines written later declare given entries, numbered on from the counter.
* `fragment_entries`: the names of the code of a tree are its entries, numbered from the seed.
-/

namespace TemplateCode

/-- Something that gets a synthetic name. -/
inductive NameEntry where
  /-- A read, with the text of what is read. -/
  | var (initializer : String)
  /-- A scope, with the names that it binds. -/
  | fn (params : List String)
deriving DecidableEq, Repr

namespace NameEntry

/-- The operation that declares an entry. -/
def role : NameEntry → Role
  | var _ => .declaration
  | fn _ => .scope

/-- The synthetic name of an entry under a number. -/
def name (number : Nat) : NameEntry → String
  | var _ => "var" ++ "$$" ++ Nat.repr number
  | fn _ => "fn" ++ "$$" ++ Nat.repr number

/-- The line that declares an entry under a number. -/
def text (number : Nat) : NameEntry → String
  | var initializer => "let " ++ (var initializer).name number ++ " = " ++ initializer ++ ";"
  | fn params =>
    "function " ++ (fn params).name number ++ "(" ++ ", ".intercalate params ++ ")" ++ " \x7b"

theorem eq_of_repr_eq {a b : Nat} (h : Nat.repr a = Nat.repr b) : a = b := by
  have hdigits : Nat.toDigits 10 a = Nat.toDigits 10 b := by
    rw [← Nat.toList_repr, ← Nat.toList_repr, h]
  have hvalue := congrArg (fun digits => Nat.ofDigitChars 10 digits 0) hdigits
  simpa [Nat.ofDigitChars_toDigits] using hvalue

/-- Names under different numbers are different, whatever they stand for. -/
theorem eq_of_name_eq {entry entry' : NameEntry} {number number' : Nat}
    (h : entry.name number = entry'.name number') : number = number' := by
  -- two names with different stems differ in their first letter
  have hchars := congrArg String.toList h
  cases entry <;> cases entry' <;> simp only [name] at h hchars
  · exact eq_of_repr_eq ((String.append_right_inj _).1 h)
  · simp at hchars
  · simp at hchars
  · exact eq_of_repr_eq ((String.append_right_inj _).1 h)

/-- A read of a text, unless the text is empty. -/
def ofText (initializer : String) : List NameEntry :=
  if initializer = "" then [] else [var initializer]

/-- A scope for some names, unless there are none. -/
def ofNames : List String → List NameEntry
  | [] => []
  | name :: names => [fn (name :: names)]

end NameEntry

namespace Node

/-- What a node itself reads and binds. -/
def ownEntries (read : Reading) (node : Node) : List NameEntry :=
  match node.kind with
  | .inlineComponent | .slotTemplate => NameEntry.ofNames (node.boundNames read)
  | .element => if node.isSlotted then NameEntry.ofNames (node.boundNames read) else []
  | .mustacheTag | .rawMustacheTag | .attributeShorthand | .binding | .eventHandler =>
    NameEntry.ofText (node.expression read)
  | .spread =>
    if node.expression read = "" then [] else [.var ("\x7b ..." ++ node.expression read ++ " \x7d")]
  | .debugTag => (node.nodesIn .identifiers).flatMap fun identifier => NameEntry.ofText identifier.label
  | .classDirective => [.var (node.classCondition read ++ " ? '" ++ node.label ++ "' : null")]
  | _ => []

/-- What a tree reads and binds: what its root does, then what is in the fields that are walked, in
order. An await block goes on with its branches, whatever the order of its fields. -/
def entries (read : Reading) (root : Node) : List NameEntry :=
  root.fold fun node below => node.ownEntries read ++ (visits node below).flatMap Prod.snd

theorem entries_eq (read : Reading) (node : Node) (here : Position) :
    node.entries read =
      node.ownEntries read ++
        (visits node (node.parts here)).flatMap fun visit => visit.2.2.entries read := by
  unfold entries
  rw [fold_eq, map_fields here, visits_mapBelow, List.flatMap_map]

end Node

/-! ## Numbering -/

/-- Whether a line declares a synthetic name. -/
def Role.names : Role → Bool
  | .declaration | .scope => true
  | .plain | .opener | .closer => false

/-- The lines that declare synthetic names, without indentation. -/
def declarations (lines : List Line) : List (Role × String) :=
  (lines.filter fun line => line.role.names).map fun line => (line.role, line.text)

/-- The declarations of entries, numbered from `first`. -/
def numbered (first : Nat) (entries : List NameEntry) : List (Role × String) :=
  entries.mapIdx fun k entry => (entry.role, entry.text (first + k))

theorem declarations_append (lines more : List Line) :
    declarations (lines ++ more) = declarations lines ++ declarations more := by
  simp [declarations]

/-- Declarations do not depend on how far in they stand. -/
theorem declarations_nest (level : Nat) (lines : List Line) :
    declarations (lines.map (Line.nest level)) = declarations lines := by
  unfold declarations
  rw [List.filter_map, List.map_map]
  rfl

theorem numbered_append (first : Nat) (entries more : List NameEntry) :
    numbered first (entries ++ more) =
      numbered first entries ++ numbered (first + entries.length) more := by
  have hshift : (fun (k : Nat) (entry : NameEntry) =>
      (entry.role, entry.text (first + (k + entries.length)))) =
        fun k entry => (entry.role, entry.text (first + entries.length + k)) := by
    funext k entry
    rw [Nat.add_assoc, Nat.add_comm k]
  unfold numbered
  rw [List.mapIdx_append, hshift]

/-! ## Code under construction -/

variable {ι : Type}

namespace Code

/-- The code has grown by lines that declare the given entries, numbered on from its counter, and
these are the names that were counted. -/
structure Issues (before : Code ι) (entries : List NameEntry) (after : Code ι) : Prop where
  declared : declarations after.lines =
    declarations before.lines ++ numbered before.counter.toNat entries
  counted : after.counter.toNat = before.counter.toNat + entries.length

theorem Issues.refl (code : Code ι) : code.Issues [] code :=
  ⟨by simp [numbered], rfl⟩

theorem Issues.trans {before mid after : Code ι} {entries more : List NameEntry}
    (h : before.Issues entries mid) (h' : mid.Issues more after) :
    before.Issues (entries ++ more) after where
  declared := by
    rw [h'.declared, h.declared, h.counted, numbered_append, List.append_assoc]
  counted := by
    rw [h'.counted, h.counted, List.length_append]
    omega

theorem Issues.quiet {before mid after : Code ι} {entries : List NameEntry}
    (h : before.Issues entries mid) (h' : mid.Issues [] after) : before.Issues entries after := by
  simpa using h.trans h'

/-- Code that has the same counter and has grown by lines that declare nothing. -/
theorem Issues.of_quiet {before after : Code ι} {lines : List Line}
    (hlines : after.lines = before.lines ++ lines) (hquiet : declarations lines = [])
    (hcounter : after.counter = before.counter) : before.Issues [] after where
  declared := by rw [hlines, declarations_append, hquiet]; simp [numbered]
  counted := by rw [hcounter]; rfl

@[simp] theorem write_counter (role : Role) (text : String) (code : Code ι) :
    (code.write role text).counter = code.counter := by
  unfold write
  split <;> rfl

theorem issues_write (role : Role) (hrole : role.names = false) (text : String) (code : Code ι) :
    code.Issues [] (code.write role text) := by
  refine .of_quiet (lines_write role text code) ?_ (write_counter role text code)
  split <;> simp [declarations, hrole]

theorem issues_append (text : String) (code : Code ι) : code.Issues [] (code.append text) :=
  issues_write .plain rfl text code

theorem issues_openBlock (header : String) (owner : Option ι) (code : Code ι) :
    code.Issues [] (code.openBlock header owner) :=
  ⟨(issues_write .opener rfl (header ++ " \x7b") code).declared,
    (issues_write .opener rfl (header ++ " \x7b") code).counted⟩

theorem issues_closeInnermost (code : Code ι) : code.Issues [] code.closeInnermost := by
  unfold closeInnermost
  split
  · exact .refl code
  · rename_i frame outer _
    have h := issues_write .closer rfl "\x7d" { code with frames := outer }
    exact ⟨h.declared, h.counted⟩

theorem issues_closeOwned [DecidableEq ι] (owner : ι) (code : Code ι) :
    code.Issues [] (code.closeOwned owner) := by
  unfold closeOwned
  refine List.foldlRecOn (motive := code.Issues []) _ _ (.refl code) ?_
  intro code' h frame _
  exact h.trans (issues_closeInnermost code')

/-- **Writing a line that declares an entry** under the next number. -/
theorem issues_count_write (entry : NameEntry) (text : String) (code : Code ι)
    (htext : text = entry.text code.counter.toNat) (hcounter : code.counter.toNat + 1 < UInt64.size) :
    code.Issues [entry] (code.count.write entry.role text) where
  declared := by
    subst htext
    have hne : entry.text code.counter.toNat ≠ "" := by cases entry <;> simp [NameEntry.text]
    have hrole : entry.role.names = true := by cases entry <;> rfl
    rw [lines_write, declarations_append, if_neg hne]
    simp [declarations, numbered, hrole, count, lines]
  counted := by
    rw [write_counter, count, UInt64.toNat_add]
    exact Nat.mod_eq_of_lt hcounter

theorem issues_declare (initializer : String) (code : Code ι)
    (hcounter : code.counter.toNat + (NameEntry.ofText initializer).length < UInt64.size) :
    code.Issues (NameEntry.ofText initializer) (code.declare initializer) := by
  unfold declare NameEntry.ofText at *
  split
  · exact .refl code
  · rename_i hne
    rw [if_neg hne] at hcounter
    exact issues_count_write (.var initializer) _ code rfl hcounter

theorem issues_openScope (params : List String) (owner : Option ι) (code : Code ι)
    (hcounter : code.counter.toNat + 1 < UInt64.size) :
    code.Issues [.fn params] (code.openScope params owner) := by
  have h := issues_count_write (.fn params) _ code rfl hcounter
  exact ⟨h.declared, h.counted⟩

/-- **Splicing in a run of its own** that was numbered on from the counter: its declarations count as
if they had been written here. -/
theorem issues_spliceInto {emission : Emission ι} {entries : List NameEntry} {code : Code ι}
    (hnested : Nested 0 (emission.run code.counter).lines 0)
    (h : (start code.counter).Issues entries (emission none (start code.counter))) :
    code.Issues entries (emission.spliceInto code) where
  declared := by
    have hdeclared : declarations (emission.run code.counter).lines =
        numbered code.counter.toNat entries := h.declared
    rw [Emission.spliceInto, lines_splice, declarations_append, hnested.filter_eq,
      declarations_nest, hdeclared]
  counted := by
    have hcounted : (emission.run code.counter).next.toNat = code.counter.toNat + entries.length :=
      h.counted
    -- the run counts on from the counter, so the larger of the two numbers is where it has stopped
    have hle : code.counter ≤ (emission.run code.counter).next :=
      UInt64.le_iff_toNat_le.2 (by omega)
    have hmax : (emission.spliceInto code).counter = (emission.run code.counter).next := if_pos hle
    rw [hmax, hcounted]

/-- **Steps that are made one after the other** declare their entries one after the other. -/
theorem issues_foldl {α : Type} (step : Code ι → α → Code ι) (entries : α → List NameEntry)
    {items : List α}
    (h : ∀ item ∈ items, ∀ code : Code ι, code.counter.toNat + (entries item).length < UInt64.size →
      code.Issues (entries item) (step code item))
    (code : Code ι) (hcounter : code.counter.toNat + (items.flatMap entries).length < UInt64.size) :
    code.Issues (items.flatMap entries) (items.foldl step code) := by
  induction items generalizing code with
  | nil => exact .refl code
  | cons item items ih =>
    obtain ⟨hitem, hitems⟩ := List.forall_mem_cons.1 h
    rw [List.flatMap_cons, List.length_append] at hcounter
    have hfirst := hitem code (by omega)
    exact hfirst.trans (ih hitems (step code item) (by rw [hfirst.counted]; omega))

end Code

variable [DecidableEq ι]

/-! ## Operations -/

/-- What an operation declares, unless it splices a fragment in. -/
def Edit.entries : Edit ι → List NameEntry
  | .declare initializer => NameEntry.ofText initializer
  | .openScope params _ => [.fn params]
  | .append _ | .openBlock _ _ | .close _ | .splice _ => []

theorem Code.issues_apply (code : Code ι) (edit : Edit ι)
    (hsplice : ∀ fragment, edit ≠ .splice fragment)
    (hcounter : code.counter.toNat + edit.entries.length < UInt64.size) :
    code.Issues edit.entries (code.apply edit) := by
  cases edit with
  | append text => exact issues_append text code
  | declare initializer => exact issues_declare initializer code hcounter
  | openBlock header owner => exact issues_openBlock header owner code
  | openScope params owner => exact issues_openScope params owner code hcounter
  | close owner =>
    cases owner with
    | none => exact issues_closeInnermost code
    | some owner => exact issues_closeOwned owner code
  | splice fragment => exact (hsplice fragment rfl).elim

theorem Code.issues_applyAll (edits : List (Edit ι)) (code : Code ι)
    (hsplice : ∀ fragment, .splice fragment ∉ edits)
    (hcounter : code.counter.toNat + (edits.flatMap Edit.entries).length < UInt64.size) :
    code.Issues (edits.flatMap Edit.entries) (code.applyAll edits) :=
  issues_foldl apply Edit.entries
    (fun edit hedit code => issues_apply code edit fun fragment h => hsplice fragment (h ▸ hedit)) code
    hcounter

omit [DecidableEq ι] in
theorem flatMap_entries_bindingScope (read : Reading) (node : Node) (owner : ι) :
    (bindingScope read node owner).flatMap Edit.entries = NameEntry.ofNames (node.boundNames read) := by
  unfold bindingScope
  cases node.boundNames read <;> rfl

omit [DecidableEq ι] in
/-- **Entering a node** declares what the node itself reads and binds, whoever its parent is. -/
theorem flatMap_entries_opening (read : Reading) (node : Node) (owner : ι) (parent : Option Kind)
    (chained : Bool) :
    (opening read node owner parent chained).flatMap Edit.entries = node.ownEntries read := by
  unfold opening Node.ownEntries
  cases node.kind with
  | inlineComponent => exact flatMap_entries_bindingScope read node owner
  | slotTemplate => exact flatMap_entries_bindingScope read node owner
  | element =>
    dsimp only
    split
    · exact flatMap_entries_bindingScope read node owner
    · rfl
  | ifBlock => cases chained <;> rfl
  | elseBlock =>
    dsimp only [elseBlock]
    split
    · rfl
    · split <;> rfl
  | eachBlock =>
    dsimp only [eachBlock]
    split <;> rfl
  | spread =>
    dsimp only
    split
    · rfl
    · simp [Edit.entries, NameEntry.ofText]
  | debugTag => exact List.flatMap_map ..
  | classDirective => simp [Edit.entries, NameEntry.ofText]
  | mustacheTag => simp [Edit.entries]
  | rawMustacheTag => simp [Edit.entries]
  | attributeShorthand => simp [Edit.entries]
  | binding => simp [Edit.entries]
  | eventHandler => simp [Edit.entries]
  | _ => rfl

/-! ## Whole trees -/

/-- What a tree does to names, wherever it is met: it declares its entries. -/
def IssuesEntries (read : Reading) (root : Node) (emission : Emission ι) : Prop :=
  ∀ (parent : Option (Parent ι)) (code : Code ι),
    code.counter.toNat + (root.entries read).length < UInt64.size →
      code.Issues (root.entries read) (emission parent code)

/-- The entries of what a step of an await block splices in. -/
def AwaitStep.entries (read : Reading) (step : AwaitStep ι (Position × Node)) : List NameEntry :=
  step.branch?.toList.flatMap fun part => part.2.entries read

theorem issues_awaitStep {read : Reading} {node : Node} {here : Position}
    {emission : Position × Node → Emission ι}
    (hnested : ∀ part ∈ node.held here, ∀ seed, Nested 0 ((emission part).run seed).lines 0)
    (hissues : ∀ part ∈ node.held here, IssuesEntries read part.2 (emission part))
    {step : AwaitStep ι (Position × Node)} (hstep : step ∈ awaitSteps read node (node.parts here))
    (code : Code ι) (hcounter : code.counter.toNat + (step.entries read).length < UInt64.size) :
    code.Issues (step.entries read) ((step.map emission).run code) := by
  rcases awaitSteps_cases hstep with ⟨edit, hplain, rfl⟩ | ⟨branch, -, rfl⟩
  · cases hplain with
    | append text => exact Code.issues_append text code
    | openBlock header => exact Code.issues_openBlock header none code
    | close => exact Code.issues_closeInnermost code
  · cases branch with
    | none => exact .refl code
    | some part =>
      have hpart := mem_of_mem_awaitSteps hstep
      have hentries : (AwaitStep.splice (ι := ι) (some part)).entries read = part.2.entries read :=
        List.flatMap_singleton ..
      rw [hentries] at hcounter ⊢
      exact Code.issues_spliceInto (hnested part hpart code.counter)
        (hissues part hpart none (Code.start code.counter) hcounter)

/-- **An await block** declares the entries of its branches in the order they are spliced in. -/
theorem issues_awaitBlock {read : Reading} {node : Node} {here : Position}
    {emission : Position × Node → Emission ι}
    (hnested : ∀ part ∈ node.held here, ∀ seed, Nested 0 ((emission part).run seed).lines 0)
    (hissues : ∀ part ∈ node.held here, IssuesEntries read part.2 (emission part))
    (code : Code ι)
    (hcounter : code.counter.toNat +
      ((branches node (node.parts here)).flatMap fun visit => visit.2.2.entries read).length <
        UInt64.size) :
    code.Issues ((branches node (node.parts here)).flatMap fun visit => visit.2.2.entries read)
      (awaitBlock read node (mapBelow emission (node.parts here)) code) := by
  rw [← flatMap_awaitSteps (ι := ι) read node (node.parts here) fun part => part.2.entries read]
    at hcounter ⊢
  rw [awaitBlock_mapBelow]
  exact Code.issues_foldl _ _ (fun step hstep => issues_awaitStep hnested hissues hstep) code hcounter

/-- **A whole tree** declares its entries. -/
theorem issues_emit (read : Reading) (identify : Position → ι) (root : Node) (here : Position)
    (hinj : Set.InjOn identify { p | p ∈ root.positions here }) :
    IssuesEntries read root (emit read identify root here) := by
  induction here, root using Node.located_induction with
  | step here node ih =>
    intro parent code hcounter
    have hpart : ∀ part ∈ node.held here,
        Set.InjOn identify { p | p ∈ part.2.positions part.1 } :=
      fun part hmem => Node.injOn_part hinj hmem
    rw [Node.entries_eq read node here] at hcounter ⊢
    by_cases hkind : node.kind = .awaitBlock
    · have hown : node.ownEntries read = [] := by simp [Node.ownEntries, hkind]
      rw [hown, List.nil_append, visits_await hkind] at hcounter ⊢
      rw [emit_await read identify here hkind]
      refine (issues_awaitBlock ?_ ?_ code hcounter).quiet (Code.issues_closeOwned _ _)
      · exact fun part hmem => nested_run (hpart part hmem)
          (extends_emit read identify part.2 part.1 (hpart part hmem))
      · exact fun part hmem => ih part hmem (hpart part hmem)
    · rw [visits_walk hkind] at hcounter ⊢
      rw [emit_walk read identify here hkind, List.length_append] at *
      refine .quiet ?_ (Code.issues_closeOwned _ _)
      have hopening := Code.issues_applyAll
        (opening read node (identify here) (parent.map Parent.kind) (isChained parent code)) code
        (splice_not_mem_opening _ _ _ _ _) (by rw [flatMap_entries_opening]; omega)
      rw [flatMap_entries_opening] at hopening
      refine hopening.trans ?_
      have hvisit : ∀ visit ∈ walked (node.parts here),
          IssuesEntries read visit.2.2 (emit read identify visit.2.2 visit.2.1) :=
        fun visit h => ih visit.2 (snd_mem_of_mem_walked h) (hpart visit.2 (snd_mem_of_mem_walked h))
      refine Code.issues_foldl _ (fun visit => visit.2.2.entries read)
        (fun visit h => hvisit visit h (some ⟨node.kind, identify here⟩)) _ ?_
      rw [hopening.counted]
      omega

/-- **The synthetic names of a tree are its entries**, each declared once, in order, and numbered from
the seed without gaps, as long as the numbers do not run out. No two of the names are the same. -/
theorem fragment_entries (source : String) (root : Node) (seed : UInt64)
    (hcounter : seed.toNat + (root.entries (Span.readIn source)).length < UInt64.size) :
    declarations (root.fragment source seed).lines =
        (root.entries (Span.readIn source)).mapIdx
          (fun k entry => (entry.role, entry.text (seed.toNat + k))) ∧
      (root.fragment source seed).next.toNat =
        seed.toNat + (root.entries (Span.readIn source)).length ∧
      ((root.entries (Span.readIn source)).mapIdx
        (fun k entry => entry.name (seed.toNat + k))).Nodup := by
  have hissues := issues_emit (Span.readIn source) id root [] (Set.injOn_id _) none
    (Code.start seed) hcounter
  refine ⟨hissues.declared, hissues.counted, ?_⟩
  -- the numbers go up by one, so two places have different numbers
  refine List.pairwise_iff_getElem.2 fun i j hi hj hij heq => ?_
  simp only [List.getElem_mapIdx] at heq
  have := NameEntry.eq_of_name_eq heq
  omega

/-- A component with a bound name, which holds an element for its slot with a spread and a class, an await
block whose branches are given in another order, and tags, over the source `abc`. -/
def readingTemplate : Node :=
  let text (start stop : Nat) : Field := .one .expression { kind := .text, span := ⟨start, stop⟩ }
  let tag (start stop : Nat) : Node := { kind := .mustacheTag, fields := [text start stop] }
  let identifier (name : Option String) : Node := { kind := .other "Identifier", name }
  let slotted : Node :=
    { kind := .element, name := some "li"
      fields := [.many .attributes [{ kind := .plainAttribute, name := some "slot" },
          { kind := .letDirective, name := some "row" },
          { kind := .spread, fields := [text 0 2] },
          { kind := .classDirective, name := some "wide", fields := [text 1 3] }],
        .many .children [tag 0 1]] }
  { kind := .fragment
    fields := [.many .children [
      { kind := .inlineComponent, name := some "Card"
        fields := [.many .attributes [{ kind := .letDirective, name := some "item" }],
          .many .children [slotted]] },
      { kind := .debugTag
        fields := [.many .identifiers [identifier (some "row"), identifier none, identifier (some "item")]] },
      { kind := .awaitBlock
        fields := [.one .catchBranch { kind := .catchBlock, fields := [.many .children [tag 1 1, tag 0 2]] },
          .one .thenBranch { kind := .thenBlock, fields := [.many .children [tag 1 2]] },
          .one .pending { kind := .pendingBlock, fields := [.many .children [tag 2 3]] }] },
      tag 0 3]] }

theorem fragment_entries_readingTemplate :
    declarations (readingTemplate.fragment "abc" 7).lines =
        [(.scope, "function fn$$7(item) \x7b"), (.scope, "function fn$$8(row) \x7b"),
          (.declaration, "let var$$9 = \x7b ...ab \x7d;"),
          (.declaration, "let var$$10 = bc ? 'wide' : null;"), (.declaration, "let var$$11 = a;"),
          (.declaration, "let var$$12 = row;"), (.declaration, "let var$$13 = item;"),
          (.declaration, "let var$$14 = c;"), (.declaration, "let var$$15 = b;"),
          (.declaration, "let var$$16 = ab;"), (.declaration, "let var$$17 = abc;")] ∧
      (readingTemplate.fragment "abc" 7).next.toNat = 18 := by
  obtain ⟨hdeclared, hnext, -⟩ := fragment_entries "abc" readingTemplate 7 (by decide +kernel)
  exact ⟨hdeclared.trans (by decide +kernel), hnext.trans (by decide +kernel)⟩

end TemplateCode
