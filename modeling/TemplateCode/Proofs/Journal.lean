import TemplateCode.Proofs.Splicing

/-!
# Any sequence of operations

Whatever is done to code under construction, in whatever order and by whomever, blocks are closed from
the innermost outwards and each end of a block stands under its head, nothing is taken back, and names
are numbered upwards. A `Journal` is kept along the operations: which line opened each block that is
open or was closed, which lines opened and closed blocks, and which names were issued.

* `Code.added`: the lines that an operation adds.
* `Journal.record` enters one operation, `Journal.of` a whole sequence.
* `Journal.Sound`, `Journal.Counted`: what a journal says at every point.
* `journal_sound`: this holds after every sequence of operations.
-/

namespace TemplateCode

variable {ι : Type}

namespace Edit

/-- Whether an operation opens a block. -/
def opens : Edit ι → Bool
  | .openBlock _ _ | .openScope _ _ => true
  | .append _ | .declare _ | .close _ | .splice _ => false

/-- Whether an operation issues a synthetic name. -/
def issues : Edit ι → Bool
  | .declare _ | .openScope _ _ => true
  | .append _ | .openBlock _ _ | .close _ | .splice _ => false

/-- Whether an operation closes blocks. -/
def closes : Edit ι → Bool
  | .close _ => true
  | .append _ | .declare _ | .openBlock _ _ | .openScope _ _ | .splice _ => false

end Edit

/-- The end of the block that a line opens, as far in as that line. -/
def Line.closing (opener : Line) : Line :=
  ⟨.closer, opener.depth, "\x7d"⟩

/-- A line is printed as nothing only if it is empty. -/
theorem Line.isEmpty_of_render_eq {line : Line} (h : line.render = "") : line.isEmpty = true := by
  obtain ⟨hindent, htext⟩ := String.append_eq_empty_iff.1 h
  have hblanks : List.replicate (indentWidth * line.depth) ' ' = [] := by
    simpa [indentation] using congrArg String.toList hindent
  have hdepth : line.depth = 0 := by
    rw [List.replicate_eq_nil_iff, indentWidth] at hblanks
    omega
  simp [isEmpty, hdepth, htext]

/-! ## Open blocks -/

/-- An open block, with its owner and the line that opened it. -/
structure Block (ι : Type) where
  owner : Option ι
  opener : Line

namespace Block

/-- The blocks are the open blocks of the code, and each was opened as far in as there are blocks around
it. -/
structure Tracked (code : Code ι) (blocks : List (Block ι)) : Prop where
  frames : blocks.map Block.owner = code.frames
  depth : ∀ inner block outer, blocks = inner ++ block :: outer → block.opener.depth = outer.length

namespace Tracked

variable {code code' : Code ι} {block : Block ι} {blocks inner outer : List (Block ι)}

theorem start (seed : UInt64) : Tracked (Code.start seed : Code ι) [] where
  frames := rfl
  depth := by simp

theorem level_eq (h : Tracked code blocks) : code.level = blocks.length := by
  unfold Code.level
  rw [← h.frames, List.length_map]

theorem of_frames (inner : List (Block ι)) (h : Tracked code (inner ++ outer))
    (hframes : code'.frames = outer.map Block.owner) : Tracked code' outer where
  frames := hframes.symm
  depth := fun inner' block' outer' heq =>
    h.depth (inner ++ inner') block' outer' (by rw [heq, List.append_assoc])

theorem push (h : Tracked code blocks) (hdepth : block.opener.depth = code.level)
    (hframes : code'.frames = block.owner :: code.frames) : Tracked code' (block :: blocks) where
  frames := by rw [hframes, List.map_cons, h.frames]
  depth := by
    intro inner block' outer heq
    cases inner with
    | nil =>
      obtain ⟨rfl, rfl⟩ := List.cons.inj heq
      rw [hdepth, h.level_eq]
    | cons _ inner => exact h.depth inner block' outer (List.cons.inj heq).2

/-- **Closing the innermost block** puts its end under its head. -/
theorem closeInnermost (h : Tracked code (block :: outer)) :
    Tracked code.closeInnermost outer ∧
      code.closeInnermost.lines = code.lines ++ [block.opener.closing] := by
  have hframes : code.frames = block.owner :: outer.map Block.owner := h.frames.symm
  have hdepth := h.depth [] block outer rfl
  constructor
  · apply of_frames [block] h
    rw [Code.closeInnermost_frames, hframes, List.tail_cons]
  · unfold Code.closeInnermost
    rw [hframes]
    dsimp only
    rw [Code.lines_write, if_neg (by simp), Line.closing, hdepth]
    simp [Code.lines, Code.level]

theorem foldl_closeInnermost (h : Tracked code (inner ++ outer)) :
    Tracked (inner.foldl (fun code _ => code.closeInnermost) code) outer ∧
      (inner.foldl (fun code _ => code.closeInnermost) code).lines =
        code.lines ++ (inner.map Block.opener).map Line.closing := by
  induction inner generalizing code with
  | nil => exact ⟨h, by simp⟩
  | cons block inner ih =>
    obtain ⟨hclosed, hlines⟩ := h.closeInnermost
    obtain ⟨htracked, hrest⟩ := ih hclosed
    refine ⟨htracked, hrest.trans ?_⟩
    rw [hlines]
    simp

end Tracked

end Block

variable [DecidableEq ι]

/-- The lines that an operation adds. -/
def Code.added (code : Code ι) (edit : Edit ι) : List Line :=
  (code.apply edit).lines.drop code.lines.length

namespace Block

/-- The blocks that are closed, innermost first: the innermost one, or, for an owner, those that are
theirs up to the first that is not. -/
def closedBy (owner : Option ι) (blocks : List (Block ι)) : List (Block ι) :=
  match owner with
  | none => blocks.take 1
  | some owner => blocks.takeWhile fun block => block.owner = some owner

/-- The blocks that an operation closes. -/
def closedIn (blocks : List (Block ι)) : Edit ι → List (Block ι)
  | .close owner => closedBy owner blocks
  | .append _ | .declare _ | .openBlock _ _ | .openScope _ _ | .splice _ => []

/-- The open blocks after an operation that has added some lines. -/
def after (blocks : List (Block ι)) (added : List Line) : Edit ι → List (Block ι)
  | .openBlock _ owner | .openScope _ owner => added.map (⟨owner, ·⟩) ++ blocks
  | .close owner => blocks.drop (closedBy owner blocks).length
  | .append _ | .declare _ | .splice _ => blocks

end Block

/-- What is noted along a sequence of operations. -/
structure Journal (ι : Type) where
  code : Code ι
  /-- The open blocks, innermost first. -/
  blocks : List (Block ι) := []
  /-- The lines added by operations that open blocks. -/
  openers : List Line := []
  /-- The lines added by operations that close blocks. -/
  closers : List Line := []
  /-- The lines that opened the blocks that have been closed, in the order of closing. -/
  closed : List Line := []
  /-- The lines added by operations that issue names. -/
  named : List Line := []
  /-- The names issued by these operations, with their numbers. -/
  issued : List (Nat × NameEntry) := []

namespace Journal

/-- Enters an operation. -/
def record (journal : Journal ι) (edit : Edit ι) : Journal ι :=
  let added := journal.code.added edit
  { code := journal.code.apply edit
    blocks := Block.after journal.blocks added edit
    openers := journal.openers ++ if edit.opens then added else []
    closers := journal.closers ++ if edit.closes then added else []
    closed := journal.closed ++ (Block.closedIn journal.blocks edit).map Block.opener
    named := journal.named ++ if edit.issues then added else []
    issued := journal.issued ++ edit.entries.map fun entry => (journal.code.counter.toNat, entry) }

/-- The journal of a sequence of operations, names counted from `seed`. -/
def of (seed : UInt64) (edits : List (Edit ι)) : Journal ι :=
  edits.foldl record { code := Code.start seed }

/-- What a journal says of blocks and lines. -/
structure Sound (journal : Journal ι) : Prop where
  tracked : Block.Tracked journal.code journal.blocks
  /-- Inner blocks were opened later. -/
  order : (journal.blocks.map Block.opener).reverse.Sublist journal.openers
  level : journal.code.level + journal.closers.length = journal.openers.length
  /-- Each end of a block stands as far in as the line that opened the block. -/
  matched : journal.closers = journal.closed.map Line.closing
  nonempty : ∀ line ∈ journal.code.lines, line.render ≠ ""
  /-- The names are declared by the lines added for them. -/
  declared : journal.named.map Line.text = journal.issued.map fun (number, entry) => entry.text number

end Journal

/-! ## One operation -/

namespace Code

theorem lines_apply (code : Code ι) (edit : Edit ι) :
    (code.apply edit).lines = code.lines ++ code.added edit := by
  obtain ⟨more, hmore⟩ := lines_prefix_apply code edit
  unfold added
  rw [← hmore, List.drop_left]

theorem added_eq {code : Code ι} {edit : Edit ι} {more : List Line}
    (h : (code.apply edit).lines = code.lines ++ more) : code.added edit = more := by
  unfold added
  rw [h, List.drop_left]

theorem added_openBlock (code : Code ι) (header : String) (owner : Option ι) :
    code.added (.openBlock header owner) = [⟨.opener, code.level, header ++ " \x7b"⟩] := by
  apply added_eq
  exact (lines_write .opener (header ++ " \x7b") code).trans (by rw [if_neg (by simp)])

theorem added_openScope (code : Code ι) (params : List String) (owner : Option ι) :
    code.added (.openScope params owner) =
      [⟨.scope, code.level, (NameEntry.fn params).text code.counter.toNat⟩] := by
  apply added_eq
  exact (lines_write .scope ((NameEntry.fn params).text code.counter.toNat) code.count).trans
    (by rw [if_neg (by simp [NameEntry.text])]; rfl)

theorem added_declare (code : Code ι) (initializer : String) :
    code.added (.declare initializer) =
      (NameEntry.ofText initializer).map fun entry =>
        ⟨.declaration, code.level, entry.text code.counter.toNat⟩ := by
  apply added_eq
  unfold apply declare NameEntry.ofText
  dsimp only
  split
  · rw [List.map_nil, List.append_nil]
  · exact (lines_write .declaration ((NameEntry.var initializer).text code.counter.toNat)
      code.count).trans (by rw [if_neg (by simp [NameEntry.text])]; rfl)

theorem added_splice (code : Code ι) (fragment : Fragment) :
    code.added (.splice fragment) =
      (fragment.lines.filter fun line => !line.isEmpty).map (Line.nest code.level) :=
  added_eq (lines_splice fragment code)

end Code

namespace Block

theorem closedBy_append (owner : Option ι) (blocks : List (Block ι)) :
    closedBy owner blocks ++ blocks.drop (closedBy owner blocks).length = blocks := by
  rw [← List.prefix_iff_eq_append]
  cases owner with
  | none => exact List.take_prefix 1 blocks
  | some owner => exact List.takeWhile_prefix _

variable {code : Code ι} {blocks : List (Block ι)}

theorem Tracked.apply_close (h : Tracked code blocks) (owner : Option ι) :
    code.apply (.close owner) =
      (closedBy owner blocks).foldl (fun code _ => code.closeInnermost) code := by
  cases owner with
  | none =>
    cases blocks with
    | nil =>
      have hframes : code.frames = [] := h.frames.symm
      unfold Code.apply Code.closeInnermost
      rw [hframes]
      rfl
    | cons block outer => rfl
  | some owner =>
    dsimp only [Code.apply, closedBy]
    unfold Code.closeOwned
    rw [← h.frames, List.takeWhile_map, List.foldl_map]
    rfl

/-- **Closing blocks** from the innermost outwards puts the end of each under its head. -/
theorem Tracked.close (h : Tracked code blocks) (owner : Option ι) :
    Tracked (code.apply (.close owner)) (blocks.drop (closedBy owner blocks).length) ∧
      code.added (.close owner) = ((closedBy owner blocks).map Block.opener).map Line.closing := by
  have hsplit : Tracked code
      (closedBy owner blocks ++ blocks.drop (closedBy owner blocks).length) := by
    rw [closedBy_append]
    exact h
  obtain ⟨htracked, hlines⟩ := hsplit.foldl_closeInnermost
  rw [← h.apply_close owner] at htracked hlines
  exact ⟨htracked, Code.added_eq hlines⟩

end Block

/-- No operation adds an empty line. -/
theorem Code.render_ne_of_mem_added {code : Code ι} {edit : Edit ι} {line : Line}
    (h : line ∈ code.added edit) : line.render ≠ "" := by
  intro hempty
  by_cases hsplice : ∃ fragment, edit = .splice fragment
  · obtain ⟨fragment, rfl⟩ := hsplice
    rw [added_splice] at h
    obtain ⟨inner, hinner, rfl⟩ := List.mem_map.1 h
    have hne := (List.mem_filter.1 hinner).2
    -- an empty line is left out, and moving a line in does not make it empty
    rw [Line.render_nest] at hempty
    rw [Line.isEmpty_of_render_eq (String.append_eq_empty_iff.1 hempty).2] at hne
    cases hne
  · obtain ⟨lines, hlines, hnested⟩ :=
      code.extends_apply edit fun fragment hedit => (hsplice ⟨fragment, hedit⟩).elim
    rw [added_eq hlines] at h
    exact hnested.text_ne line h (String.append_eq_empty_iff.1 hempty).2

namespace Journal.Sound

variable {journal : Journal ι}

theorem tracked_record (h : journal.Sound) (edit : Edit ι) :
    Block.Tracked (journal.record edit).code (journal.record edit).blocks := by
  have hframes := journal.code.apply_frames edit
  have hkeep : (journal.code.apply edit).frames = journal.code.frames →
      Block.Tracked (journal.code.apply edit) journal.blocks :=
    fun heq => .of_frames [] h.tracked (heq.trans h.tracked.frames.symm)
  unfold record Block.after
  cases edit with
  | append text => exact hkeep hframes
  | declare initializer => exact hkeep hframes
  | splice fragment => exact hkeep hframes
  | openBlock header owner =>
    dsimp only
    rw [Code.added_openBlock]
    exact h.tracked.push rfl hframes
  | openScope params owner =>
    dsimp only
    rw [Code.added_openScope]
    exact h.tracked.push rfl hframes
  | close owner => exact (h.tracked.close owner).1

theorem order_record (h : journal.Sound) (edit : Edit ι) :
    ((journal.record edit).blocks.map Block.opener).reverse.Sublist (journal.record edit).openers := by
  unfold record Block.after
  cases edit with
  | openBlock header owner =>
    simpa [Edit.opens, Code.added_openBlock] using h.order
  | openScope params owner =>
    simpa [Edit.opens, Code.added_openScope] using h.order
  | close owner =>
    have hdrop := (List.drop_sublist (Block.closedBy owner journal.blocks).length journal.blocks).map
      Block.opener
    simpa [Edit.opens] using hdrop.reverse.trans h.order
  | append text => simpa [Edit.opens] using h.order
  | declare initializer => simpa [Edit.opens] using h.order
  | splice fragment => simpa [Edit.opens] using h.order

theorem level_record (h : journal.Sound) (edit : Edit ι) :
    (journal.record edit).code.level + (journal.record edit).closers.length =
      (journal.record edit).openers.length := by
  have hlevel := h.level
  rw [h.tracked.level_eq] at hlevel
  rw [(h.tracked_record edit).level_eq]
  unfold record Block.after
  cases edit with
  | openBlock header owner =>
    simp only [Edit.opens, Edit.closes, Code.added_openBlock]
    simp
    omega
  | openScope params owner =>
    simp only [Edit.opens, Edit.closes, Code.added_openScope]
    simp
    omega
  | close owner =>
    have hlength := congrArg List.length (Block.closedBy_append owner journal.blocks)
    simp only [Edit.opens, Edit.closes, (h.tracked.close owner).2]
    simp at hlength ⊢
    omega
  | append text => simpa [Edit.opens, Edit.closes] using hlevel
  | declare initializer => simpa [Edit.opens, Edit.closes] using hlevel
  | splice fragment => simpa [Edit.opens, Edit.closes] using hlevel

theorem matched_record (h : journal.Sound) (edit : Edit ι) :
    (journal.record edit).closers = (journal.record edit).closed.map Line.closing := by
  unfold record Block.closedIn
  cases edit with
  | close owner =>
    simp only [Edit.closes, if_true, List.map_append, ← h.matched, (h.tracked.close owner).2]
  | _ => simpa [Edit.closes] using h.matched

theorem declared_record (h : journal.Sound) (edit : Edit ι) :
    (journal.record edit).named.map Line.text =
      (journal.record edit).issued.map fun (number, entry) => entry.text number := by
  unfold record
  cases edit with
  | declare initializer =>
    simp only [Edit.issues, Edit.entries, if_true, List.map_append, h.declared, Code.added_declare,
      List.map_map]
    rfl
  | openScope params owner =>
    simp only [Edit.issues, Edit.entries, if_true, List.map_append, h.declared, Code.added_openScope]
    rfl
  | _ => simpa [Edit.issues, Edit.entries] using h.declared

/-- **One operation** keeps a journal sound. -/
theorem record (h : journal.Sound) (edit : Edit ι) : (journal.record edit).Sound where
  tracked := h.tracked_record edit
  order := h.order_record edit
  level := h.level_record edit
  matched := h.matched_record edit
  declared := h.declared_record edit
  nonempty := by
    intro line hline
    have hlines := journal.code.lines_apply edit
    rw [Journal.record, hlines, List.mem_append] at hline
    exact hline.elim (h.nonempty line) Code.render_ne_of_mem_added

end Journal.Sound

namespace Journal

theorem sound_of (seed : UInt64) (edits : List (Edit ι)) : (of seed edits).Sound := by
  refine List.foldlRecOn (motive := Sound) edits record ?_ fun journal h edit _ => h.record edit
  exact ⟨.start seed, .slnil, rfl, rfl, by simp [Code.start, Code.lines], rfl⟩

theorem code_of (seed : UInt64) (edits : List (Edit ι)) :
    (of seed edits).code = (Code.start seed).applyAll edits := by
  unfold of Code.applyAll
  exact (List.foldl_hom Journal.code fun _ _ => rfl).symm

/-! ## Names -/

/-- Whether no number runs over while names are issued. -/
def countsOn (code : Code ι) : List (Edit ι) → Bool
  | [] => true
  | edit :: edits =>
    code.counter.toNat + edit.entries.length < UInt64.size && countsOn (code.apply edit) edits

/-- What a journal says of the numbers of names. -/
structure Counted (journal : Journal ι) : Prop where
  increasing : (journal.issued.map Prod.fst).Pairwise (· < ·)
  below : ∀ number ∈ journal.issued.map Prod.fst, number < journal.code.counter.toNat

/-- What has been written and counted stays, and names that are issued later have numbers that are not
below the counter. -/
structure Leads (before after : Journal ι) : Prop where
  counter : before.code.counter ≤ after.code.counter
  issued : ∃ later, after.issued = before.issued ++ later ∧
    ∀ number ∈ later.map Prod.fst, before.code.counter.toNat ≤ number

end Journal

omit [DecidableEq ι] in
theorem Code.counter_splice (fragment : Fragment) (code : Code ι) :
    code.counter.toNat ≤ (code.splice fragment).counter.toNat ∧
      fragment.next.toNat ≤ (code.splice fragment).counter.toNat := by
  have hmax : (code.splice fragment).counter =
      if code.counter ≤ fragment.next then fragment.next else code.counter := rfl
  rw [hmax]
  split
  · exact ⟨UInt64.le_iff_toNat_le.1 ‹_›, Nat.le_refl _⟩
  · rename_i h
    rw [UInt64.le_iff_toNat_le] at h
    exact ⟨Nat.le_refl _, by omega⟩

/-- An operation counts at least the names that it issues. -/
theorem Code.counter_apply (code : Code ι) (edit : Edit ι)
    (hcounter : code.counter.toNat + edit.entries.length < UInt64.size) :
    code.counter.toNat + edit.entries.length ≤ (code.apply edit).counter.toNat := by
  by_cases hsplice : ∃ fragment, edit = .splice fragment
  · obtain ⟨fragment, rfl⟩ := hsplice
    exact (counter_splice fragment code).1
  · exact (code.issues_apply edit (fun fragment h => hsplice ⟨fragment, h⟩) hcounter).counted.ge

omit [DecidableEq ι] in
theorem Edit.entries_cases (edit : Edit ι) : edit.entries = [] ∨ ∃ entry, edit.entries = [entry] := by
  cases edit with
  | declare initializer =>
    dsimp only [entries]
    unfold NameEntry.ofText
    split
    · exact Or.inl rfl
    · exact Or.inr ⟨_, rfl⟩
  | openScope params owner => exact Or.inr ⟨_, rfl⟩
  | _ => exact Or.inl rfl

namespace Journal

variable {journal : Journal ι}

/-- **One operation** issues numbers upwards. -/
theorem Counted.record (h : journal.Counted) {edit : Edit ι}
    (hcounter : journal.code.counter.toNat + edit.entries.length < UInt64.size) :
    (journal.record edit).Counted := by
  have hnext := journal.code.counter_apply edit hcounter
  have hbelow : ∀ number ∈ journal.issued.map Prod.fst,
      number < (journal.code.apply edit).counter.toNat := by
    intro number hnumber
    have := h.below number hnumber
    omega
  unfold Journal.record
  rcases edit.entries_cases with hentries | ⟨entry, hentries⟩
  · rw [hentries]
    exact ⟨by simpa using h.increasing, by simpa using hbelow⟩
  · rw [hentries, List.length_singleton] at hnext
    rw [hentries]
    constructor
    · simp only [List.map_append, List.map_cons, List.map_nil]
      refine List.pairwise_append.2 ⟨h.increasing, List.pairwise_singleton _ _, ?_⟩
      intro number hnumber number' hnumber'
      rw [List.mem_singleton.1 hnumber']
      exact h.below number hnumber
    · simp only [List.map_append, List.map_cons, List.map_nil, List.mem_append, List.mem_singleton]
      rintro number (hnumber | rfl)
      · exact hbelow number hnumber
      · omega

omit [DecidableEq ι] in
theorem Leads.refl (journal : Journal ι) : journal.Leads journal :=
  ⟨UInt64.le_refl _, [], by simp, by simp⟩

omit [DecidableEq ι] in
theorem Leads.trans {before mid after : Journal ι} (h : before.Leads mid) (h' : mid.Leads after) :
    before.Leads after := by
  obtain ⟨later, hissued, hlater⟩ := h.issued
  obtain ⟨later', hissued', hlater'⟩ := h'.issued
  have hcounter := UInt64.le_iff_toNat_le.1 h.counter
  refine ⟨UInt64.le_trans h.counter h'.counter, later ++ later', ?_, ?_⟩
  · rw [hissued', hissued, List.append_assoc]
  · rw [List.map_append]
    intro number hnumber
    rcases List.mem_append.1 hnumber with hnumber | hnumber
    · exact hlater number hnumber
    · have := hlater' number hnumber
      omega

theorem leads_record {edit : Edit ι}
    (hcounter : journal.code.counter.toNat + edit.entries.length < UInt64.size) :
    journal.Leads (journal.record edit) where
  counter := by
    have hnext := journal.code.counter_apply edit hcounter
    exact UInt64.le_iff_toNat_le.2 (by dsimp only [record]; omega)
  issued := by
    refine ⟨_, rfl, fun number hnumber => ?_⟩
    rw [List.map_map, List.mem_map] at hnumber
    obtain ⟨entry, -, rfl⟩ := hnumber
    exact Nat.le_refl _

/-- **A sequence of operations** keeps numbers going up, as long as they do not run over. -/
theorem counted_foldl {edits : List (Edit ι)} (hcounts : countsOn journal.code edits = true) :
    journal.Leads (edits.foldl record journal) ∧
      (journal.Counted → (edits.foldl record journal).Counted) := by
  induction edits generalizing journal with
  | nil => exact ⟨.refl journal, id⟩
  | cons edit edits ih =>
    rw [countsOn, Bool.and_eq_true, decide_eq_true_eq] at hcounts
    have hrecorded : countsOn (journal.record edit).code edits = true := hcounts.2
    obtain ⟨hleads, hcounted⟩ := ih hrecorded
    exact ⟨(leads_record hcounts.1).trans hleads, fun h => hcounted (h.record hcounts.1)⟩

theorem countsOn_append {code : Code ι} {edits more : List (Edit ι)} :
    countsOn code (edits ++ more) = (countsOn code edits && countsOn (code.applyAll edits) more) := by
  induction edits generalizing code with
  | nil => rfl
  | cons edit edits ih => rw [List.cons_append, countsOn, countsOn, ih, Code.applyAll_cons, Bool.and_assoc]

theorem of_append (seed : UInt64) (before after : List (Edit ι)) :
    of seed (before ++ after) = after.foldl record (of seed before) :=
  List.foldl_append

end Journal

/-- **Every sequence of operations**, by whomever and in whatever order. Nothing that is written is taken
back. The open blocks are the heads of blocks less their ends; blocks are closed from the last opened
on, and each end stands as far in as its head. No line is empty. As long as the numbers of names do not
run over, the counter does not go down, names are numbered upwards, and after a fragment is spliced in
they are not below the number that the fragment goes on with. -/
theorem journal_sound (seed : UInt64) (edits : List (Edit ι)) :
    (Journal.of seed edits).code = (Code.start seed).applyAll edits ∧
    (Journal.of seed edits).Sound ∧
    (∀ before after, edits = before ++ after →
      ((Code.start seed).applyAll before).lines <+: ((Code.start seed).applyAll edits).lines) ∧
    (Journal.countsOn (Code.start seed) edits = true →
      (Journal.of seed edits).Counted ∧
      (∀ before after, edits = before ++ after →
        (Journal.of seed before).Leads (Journal.of seed edits)) ∧
      ∀ before fragment after, edits = before ++ .splice fragment :: after →
        ∃ later, (Journal.of seed edits).issued = (Journal.of seed before).issued ++ later ∧
          ∀ number ∈ later.map Prod.fst, fragment.next.toNat ≤ number) := by
  refine ⟨Journal.code_of seed edits, Journal.sound_of seed edits, ?_, fun hcounts => ⟨?_, ?_, ?_⟩⟩
  · rintro before after rfl
    rw [Code.applyAll_append]
    exact Code.lines_prefix_applyAll _ after
  · exact (Journal.counted_foldl hcounts).2 ⟨.nil, by simp⟩
  · rintro before after rfl
    rw [Journal.countsOn_append, Bool.and_eq_true, ← Journal.code_of] at hcounts
    rw [Journal.of_append]
    exact (Journal.counted_foldl hcounts.2).1
  · rintro before fragment after rfl
    rw [Journal.countsOn_append, Bool.and_eq_true, ← Journal.code_of, Journal.countsOn,
      Bool.and_eq_true] at hcounts
    have hspliced : Journal.countsOn ((Journal.of seed before).record (.splice fragment)).code after =
        true := hcounts.2.2
    obtain ⟨later, hissued, hlater⟩ := (Journal.counted_foldl hspliced).1.issued
    refine ⟨later, ?_, fun number hnumber => ?_⟩
    · rw [Journal.of_append, List.foldl_cons, hissued]
      simp [Journal.record, Edit.entries]
    · exact (Code.counter_splice fragment (Journal.of seed before).code).2.trans
        (hlater number hnumber)

/-- Blocks of two owners by turns, owners who are not innermost, a fragment that is ahead of the counter,
and one end too many. -/
def interleavedEdits : List (Edit Nat) :=
  [.openBlock "if (a)" (some 1), .openScope ["b"] (some 2), .openBlock "if (c)" (some 1),
    .close (some 2), .splice (.ofTexts ["", "x;"] 9), .declare "d", .close (some 1), .close none,
    .close (some 2), .close (some 1), .close none]

theorem journal_sound_interleavedEdits :
    Journal.countsOn (Code.start 3) interleavedEdits = true ∧
      (Journal.of 3 interleavedEdits).Counted ∧
      ∃ later, (Journal.of 3 interleavedEdits).issued =
          (Journal.of 3 (interleavedEdits.take 4)).issued ++ later ∧
        ∀ number ∈ later.map Prod.fst, 9 ≤ number := by
  have hcounts : Journal.countsOn (Code.start 3) interleavedEdits = true := by decide +kernel
  obtain ⟨-, -, -, hnames⟩ := journal_sound 3 interleavedEdits
  obtain ⟨hcounted, -, hafter⟩ := hnames hcounts
  exact ⟨hcounts, hcounted, hafter (interleavedEdits.take 4) (.ofTexts ["", "x;"] 9)
    (interleavedEdits.drop 5) rfl⟩

end TemplateCode
