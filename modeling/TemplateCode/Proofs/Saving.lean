import TemplateCode.Proofs.Decoding
import TemplateCode.Proofs.Quoting
import TemplateCode.Proofs.Tasks
import Mathlib.Data.List.Basic

/-!
# Settings that are saved are loaded again

A settings file consists of the headers of its parts, of a line for each setting, and of an empty line
between the parts. Each of these is an expression of a document, and after it the document has one thing more:
a table, or an entry of the latest table. This is so whichever of them are there, as long as no setting has
lost the header above it, and in whatever style texts are quoted, as long as they fit into it.

* `Toml.Document.Passes`: what a document is after a text, `Toml.Document.passes_header`,
  `Toml.Document.passes_assignment`: after a header and after the line of a key.
* `Settings.Styles`, `Settings.Fits`: how texts may be quoted.
* `Settings.Stretch`, `Settings.renderOnly`: what a settings file consists of, and what is left of it.
* `Settings.ofText_renderOnly`: the tables that are left, `Settings.ofText_kept`: the settings that are left.
* `loadSettings_saved`: **settings that are saved are loaded again**, and what is removed from the file has
  its default.
-/

namespace TemplateCode

namespace Toml

variable {c mark sign : Char} {rest after : List Char}

/-! ## Keys and values -/

theorem skipBlank_cons (hc : isBlank c = false) (cs : List Char) : skipBlank (c :: cs) = c :: cs :=
  List.dropWhile_cons_of_neg (by simp [hc])

theorem ne_of_isBareMark {c d : Char} (hc : isBareMark c = true) (hd : isBareMark d = false) : c ≠ d := by
  rintro rfl
  rw [hc] at hd
  cases hd

theorem isBlank_of_isBareMark (hc : isBareMark c = true) : isBlank c = false := by
  simp [isBlank, ne_of_isBareMark hc (d := ' ') (by decide), ne_of_isBareMark hc (d := '\t') (by decide)]

/-- A name that can be a key without quotes. -/
structure IsBare (name : List Char) : Prop where
  ne_nil : name ≠ []
  forall_mem : ∀ c ∈ name, isBareMark c = true

theorem IsBare.of_all {name : List Char} (hne : name ≠ []) (hall : name.all isBareMark = true) : IsBare name :=
  ⟨hne, List.all_eq_true.1 hall⟩

theorem IsBare.append_ne {name : List Char} (h : IsBare name) {d : Char} (hd : isBareMark d = false)
    (cs rest : List Char) : name ++ cs ≠ d :: rest := by
  obtain ⟨c, more, rfl⟩ := List.exists_cons_of_ne_nil h.ne_nil
  intro heq
  exact ne_of_isBareMark (h.forall_mem c List.mem_cons_self) hd (List.cons.inj heq).1

theorem keyPart_bare {name : List Char} (h : IsBare name) (hmark : isBareMark mark = false)
    (rest : List Char) : keyPart (name ++ mark :: rest) = some (String.ofList name, mark :: rest) := by
  obtain ⟨c, more, hname⟩ := List.exists_cons_of_ne_nil h.ne_nil
  have htake : (name ++ mark :: rest).takeWhile isBareMark = c :: more := by
    rw [List.takeWhile_append_of_pos h.forall_mem, List.takeWhile_cons_of_neg (by simp [hmark]),
      List.append_nil, hname]
  have hdrop : (name ++ mark :: rest).dropWhile isBareMark = mark :: rest := by
    rw [List.dropWhile_append_of_pos h.forall_mem, List.dropWhile_cons_of_neg (by simp [hmark])]
  rw [keyPart]
  · rw [htake, hdrop, hname]
  · exact h.append_ne (by decide) _
  · exact h.append_ne (by decide) _

/-- A key without quotes and points ends before the first mark that is not its own. -/
theorem key_bare {name : List Char} (h : IsBare name) (hmark : isBareMark mark = false)
    (hskip : skipBlank (mark :: rest) = sign :: after) (hsign : sign ≠ '.') :
    key (name ++ mark :: rest) = some (([], String.ofList name), sign :: after) := by
  have hblank : skipBlank (name ++ mark :: rest) = name ++ mark :: rest := by
    obtain ⟨c, more, rfl⟩ := List.exists_cons_of_ne_nil h.ne_nil
    exact skipBlank_cons (isBlank_of_isBareMark (h.forall_mem c List.mem_cons_self)) _
  have hparts : ∀ bound, keyParts (bound + 1) (name ++ mark :: rest) =
      some ([String.ofList name], sign :: after) := by
    intro bound
    simp [keyParts, hblank, keyPart_bare h hmark, hskip, hsign]
  simp [key, hparts, depthLimit]

/-! ## Expressions -/

namespace Item

variable {name : String} {front : Entries}

theorem lookup_append_of_none (hfront : front.lookup name = none) (item : Item) :
    (front ++ [(name, item)]).lookup name = some item := by
  rw [List.lookup_append, hfront, Option.none_or, List.lookup_cons_self]

/-- The table that comes last is replaced. -/
theorem replace_append (hfront : front.lookup name = none) (item new : Item) :
    replace name new (front ++ [(name, item)]) = front ++ [(name, new)] := by
  have hkeep : replace name new front = front := by
    refine (List.map_congr_left fun entry hentry => ?_).trans (List.map_id front)
    have hother : entry.1 ≠ name := by
      rintro rfl
      have hfound := List.lookup_eq_none_iff.1 hfront entry hentry
      simp at hfound
    exact if_neg hother
  rw [replace, List.map_append]
  change replace name new front ++ _ = _
  rw [hkeep]
  simp

end Item

namespace Document

variable {document later last : Document} {name : String} {cs : List Char}

/-- A document reads a text and is another one after it, whatever comes next. A bound that is enough for all of
it leaves one that is enough for what comes next. -/
def Passes (document : Document) (cs : List Char) (later : Document) : Prop :=
  ∀ rest bound, (cs ++ rest).length < bound →
    ∃ left, rest.length < left ∧ expressions bound document (cs ++ rest) = expressions left later rest

theorem passes_nil (document : Document) : document.Passes [] document :=
  fun _ bound hbound => ⟨bound, hbound, rfl⟩

theorem Passes.append {cs' : List Char} (h : document.Passes cs later) (h' : later.Passes cs' last) :
    document.Passes (cs ++ cs') last := by
  intro rest bound hbound
  rw [List.append_assoc] at hbound ⊢
  obtain ⟨left, hleft, hread⟩ := h (cs' ++ rest) bound hbound
  obtain ⟨left', hleft', hread'⟩ := h' rest left hleft
  exact ⟨left', hleft', hread.trans hread'⟩

/-- An expression is passed in one step. -/
theorem passes_of_expression {first : Char} (hfirst : isBlank first = false)
    (h : ∀ rest, document.expression (first :: cs ++ rest) = some (later, rest)) :
    document.Passes (first :: cs) later := by
  intro rest bound hbound
  cases bound with
  | zero => cases hbound
  | succ bound =>
    refine ⟨bound, ?_, ?_⟩
    · simp only [List.cons_append, List.length_cons, List.length_append] at hbound
      omega
    · have hskip : skipBlank (first :: cs ++ rest) = first :: (cs ++ rest) := skipBlank_cons hfirst _
      have hread : document.expression (first :: (cs ++ rest)) = some (later, rest) := h rest
      rw [expressions, hskip]
      simp only [hread, Option.bind_eq_bind, Option.bind_some]

/-- **A text that is passed to its end** is read. -/
theorem Passes.expressions_eq (h : document.Passes cs later) :
    expressions (cs.length + 1) document cs = some later := by
  obtain ⟨left, hleft, hread⟩ := h [] (cs.length + 1) (by simp)
  rw [List.append_nil] at hread
  rw [hread]
  cases left with
  | zero => cases hleft
  | succ left => rfl

theorem passes_blank (document : Document) : document.Passes ['\n'] document :=
  passes_of_expression (by decide) fun _ => rfl

/-- **The header of a table** that is not there yet. -/
theorem passes_header (hname : IsBare name.toList) (hnew : document.entries.lookup name = none) :
    document.Passes ('[' :: (name.toList ++ [']', '\n']))
      ⟨document.entries ++ [(name, .table .header [])], [name]⟩ := by
  refine passes_of_expression (by decide) fun rest => ?_
  have hkey : key (name.toList ++ ']' :: '\n' :: rest) = some (([], name), ']' :: '\n' :: rest) := by
    rw [key_bare hname (by decide) (skipBlank_cons (by decide) _) (by decide), String.ofList_toList]
  have hdeclare : Item.declareTable [] name document.entries =
      some (document.entries ++ [(name, .table .header [])]) := by
    simp [Item.declareTable, Item.descend, hnew]
  have htext : '[' :: (name.toList ++ [']', '\n']) ++ rest = '[' :: (name.toList ++ ']' :: '\n' :: rest) := by
    simp
  have hend : afterLine? ('\n' :: rest) = some rest := rfl
  rw [htext, expression]
  · simp [hkey, after?, hdeclare, hend]
  · exact hname.append_ne (by decide) _

/-- A key and its value on a line of the latest table, which does not have the key yet. -/
theorem assign_append {front inside : Entries} {key : String} {item : Item} (hfront : front.lookup name = none)
    (hinside : inside.lookup key = none) :
    assign ⟨front ++ [(name, .table .header inside)], [name]⟩ [] key item =
      some ⟨front ++ [(name, .table .header (inside ++ [(key, item)]))], [name]⟩ := by
  simp [assign, Item.assign, Item.descend, Item.add, Item.lookup_append_of_none hfront, hinside,
    Item.replace_append hfront]

/-- An expression that begins with a key is a key and its value. -/
theorem expression_cons (hc : isBareMark c = true) (cs : List Char) :
    document.expression (c :: cs) = do
      let (((path, key), item), rest) ← assignment (value depthLimit) (c :: cs)
      return (← document.assign path key item, ← afterLine? rest) := by
  rw [expression]
  -- no other expression begins with such a character
  all_goals
    intro rest heq
    refine ne_of_isBareMark hc ?_ (List.cons.inj heq).1
    decide

/-- **The line of a key.** -/
theorem passes_assignment {key : String} {item : Item} {text : List Char} (hkey : IsBare key.toList)
    (hblank : ∀ rest, skipBlank (text ++ rest) = text ++ rest)
    (hvalue : ∀ rest, value depthLimit (text ++ '\n' :: rest) = some (item, '\n' :: rest))
    (hassign : document.assign [] key item = some later) :
    document.Passes (key.toList ++ ' ' :: '=' :: ' ' :: (text ++ ['\n'])) later := by
  obtain ⟨c, name, hcons⟩ := List.exists_cons_of_ne_nil hkey.ne_nil
  have hc : isBareMark c = true := hkey.forall_mem c (hcons ▸ List.mem_cons_self)
  have hname : ∀ cs, Toml.key (key.toList ++ ' ' :: '=' :: cs) = some (([], key), '=' :: cs) := by
    intro cs
    rw [key_bare hkey (by decide) rfl (by decide), String.ofList_toList]
  have hpair : ∀ rest,
      assignment (value depthLimit) (key.toList ++ ' ' :: '=' :: ' ' :: (text ++ '\n' :: rest)) =
        some ((([], key), item), '\n' :: rest) := by
    intro rest
    have hskip : skipBlank (' ' :: (text ++ '\n' :: rest)) = text ++ '\n' :: rest := hblank _
    simp [assignment, hname, after?, hskip, hvalue]
  rw [hcons, List.cons_append]
  refine passes_of_expression (isBlank_of_isBareMark hc) fun rest => ?_
  have hline : c :: (name ++ ' ' :: '=' :: ' ' :: (text ++ ['\n'])) ++ rest =
      c :: (name ++ ' ' :: '=' :: ' ' :: (text ++ '\n' :: rest)) := by simp
  have hend : afterLine? ('\n' :: rest) = some rest := rfl
  rw [hline, expression_cons hc, ← List.cons_append, ← hcons, hpair rest]
  simp [hassign, hend]

end Document

end Toml

namespace Settings

open Setting (Section)
open Toml (Document Entries)

/-! ## Lines -/

/-- The value of a setting in a document. -/
def item (settings : Settings) : Setting → Toml.Item
  | .stripTags => .boolean settings.stripTags
  | .dir => .text settings.dir.text
  | .extension => .text settings.extension
  | .write => .boolean settings.write

/-- The entries of a table with the given settings. -/
def entriesOf (settings : Settings) (chosen : List Setting) : Entries :=
  chosen.map fun setting => (setting.key, settings.item setting)

theorem skipBlank_truth (value : Bool) (rest : List Char) :
    Toml.skipBlank ((truth value).toList ++ rest) = (truth value).toList ++ rest := by
  cases value <;> rfl

theorem skipBlank_quote (style : Toml.Style) (text rest : List Char) :
    Toml.skipBlank (style.quote text ++ rest) = style.quote text ++ rest := by
  cases style <;> rfl

theorem value_truth (value : Bool) (rest : List Char) :
    Toml.value Toml.depthLimit ((truth value).toList ++ '\n' :: rest) =
      some (.boolean value, '\n' :: rest) := by
  cases value <;> rfl

theorem value_quote {style : Toml.Style} {text : String} (h : style.Fits text.toList) (rest : List Char) :
    Toml.value Toml.depthLimit (style.quote text.toList ++ '\n' :: rest) = some (.text text, '\n' :: rest) := by
  -- in every style the first character is a quote
  have hvalue : Toml.value Toml.depthLimit (style.quote text.toList ++ '\n' :: rest) =
      (Toml.quotedText (style.quote text.toList ++ '\n' :: rest)).map
        fun read => (.text (String.ofList read.1), read.2) := by
    cases style <;> rfl
  rw [hvalue, Toml.quotedText_quote h, Option.map_some, String.ofList_toList]

/-- A choice of styles for the settings that are texts. -/
abbrev Styles := Setting → Toml.Style

/-- The styles in which settings are saved. -/
def styles (settings : Settings) : Styles
  | .dir => Toml.styleOf settings.dir.text.toList
  | _ => Toml.styleOf settings.extension.toList

/-- The texts fit into the styles that are chosen for them. -/
structure Fits (settings : Settings) (styles : Styles) : Prop where
  dir : (styles .dir).Fits settings.dir.text.toList
  extension : (styles .extension).Fits settings.extension.toList

theorem fits_styles (settings : Settings) : settings.Fits settings.styles :=
  ⟨Toml.fits_styleOf _, Toml.fits_styleOf _⟩

/-- The value of a setting as it is written in some style. -/
def writtenIn (settings : Settings) (styles : Styles) : Setting → List Char
  | .stripTags => (truth settings.stripTags).toList
  | .dir => (styles .dir).quote settings.dir.text.toList
  | .extension => (styles .extension).quote settings.extension.toList
  | .write => (truth settings.write).toList

variable {styles : Styles}

theorem skipBlank_writtenIn (settings : Settings) (styles : Styles) (setting : Setting) (rest : List Char) :
    Toml.skipBlank (settings.writtenIn styles setting ++ rest) = settings.writtenIn styles setting ++ rest := by
  cases setting with
  | stripTags => exact skipBlank_truth settings.stripTags rest
  | dir => exact skipBlank_quote _ _ rest
  | extension => exact skipBlank_quote _ _ rest
  | write => exact skipBlank_truth settings.write rest

/-- The value of a setting is read back. -/
theorem value_writtenIn {settings : Settings} (hfits : settings.Fits styles) (setting : Setting)
    (rest : List Char) :
    Toml.value Toml.depthLimit (settings.writtenIn styles setting ++ '\n' :: rest) =
      some (settings.item setting, '\n' :: rest) := by
  cases setting with
  | stripTags => exact value_truth settings.stripTags rest
  | dir => exact value_quote hfits.dir rest
  | extension => exact value_quote hfits.extension rest
  | write => exact value_truth settings.write rest

theorem isBare_key (setting : Setting) : Toml.IsBare setting.key.toList := by
  cases setting <;> exact .of_all (by decide) rfl

/-- The line of a setting. -/
def lineIn (settings : Settings) (styles : Styles) (setting : Setting) : List Char :=
  setting.key.toList ++ ' ' :: '=' :: ' ' :: (settings.writtenIn styles setting ++ ['\n'])

theorem toList_line (settings : Settings) (setting : Setting) :
    (settings.line setting).toList = settings.lineIn settings.styles setting := by
  have hwritten : (settings.written setting).toList = settings.writtenIn settings.styles setting := by
    cases setting with
    | stripTags | write => rfl
    | dir | extension => exact String.toList_ofList
  simp [line, lineIn, hwritten]

/-- **The lines of settings** put them into the latest table, one after another. -/
theorem passes_lines {settings : Settings} (hfits : settings.Fits styles) {front : Entries} {name : String}
    (hfront : front.lookup name = none) {inside : Entries} {chosen : List Setting}
    (hnodup : (chosen.map Setting.key).Nodup)
    (hinside : ∀ setting ∈ chosen, inside.lookup setting.key = none) :
    Document.Passes ⟨front ++ [(name, .table .header inside)], [name]⟩
      (chosen.flatMap (settings.lineIn styles))
      ⟨front ++ [(name, .table .header (inside ++ settings.entriesOf chosen))], [name]⟩ := by
  induction chosen generalizing inside with
  | nil => simpa [entriesOf] using Document.passes_nil _
  | cons setting chosen ih =>
    obtain ⟨hsetting, hchosen⟩ := List.forall_mem_cons.1 hinside
    obtain ⟨hnew, hnodup⟩ := List.nodup_cons.1 hnodup
    have hline := Document.passes_assignment (isBare_key setting) (settings.skipBlank_writtenIn styles setting)
      (value_writtenIn hfits setting) (Document.assign_append hfront hsetting)
    -- the table has one more key now, which is none of those to come
    have hinside' : ∀ other ∈ chosen,
        (inside ++ [(setting.key, settings.item setting)]).lookup other.key = none := by
      intro other hother
      have hne : (other.key == setting.key) = false :=
        beq_eq_false_iff_ne.2 (ne_of_mem_of_not_mem (List.mem_map_of_mem hother) hnew)
      rw [List.lookup_append, hchosen other hother, Option.none_or, List.lookup_cons, hne, List.lookup_nil]
    have hrest := ih hnodup hinside'
    rw [List.append_assoc, List.singleton_append] at hrest
    rw [List.flatMap_cons]
    exact hline.append hrest

/-! ## Parts -/

/-- What a settings file consists of. -/
inductive Stretch where
  | header (part : Section)
  | line (setting : Setting)
  /-- The empty line between two parts. -/
  | gap

/-- The characters of a stretch. -/
def Stretch.chars (settings : Settings) (styles : Styles) : Stretch → List Char
  | .header part => '[' :: (part.name.toList ++ [']', '\n'])
  | .line setting => settings.lineIn styles setting
  | .gap => ['\n']

/-- A part of the settings file: its header and its settings. -/
def partStretches (part : Section) : List Stretch :=
  .header part :: part.settings.map .line

/-- The whole settings file. -/
def stretches : List Stretch :=
  partStretches Setting.preprocess ++ [.gap] ++ partStretches Setting.output

/-- The characters of some stretches. -/
def charsOf (settings : Settings) (styles : Styles) (chosen : List Stretch) : List Char :=
  chosen.flatMap (Stretch.chars settings styles)

/-- What is left of a settings file with texts in the given styles if the other stretches are removed. -/
def renderOnly (settings : Settings) (styles : Styles) (kept : Stretch → Bool) : String :=
  String.ofList (settings.charsOf styles (stretches.filter kept))

theorem render_eq_renderOnly (settings : Settings) :
    settings.render = settings.renderOnly settings.styles fun _ => true := by
  apply String.toList_injective
  simp [render, renderOnly, charsOf, stretches, partStretches, Setting.preprocess, Setting.output,
    Stretch.chars, sectionText, toList_line]

/-- The header of a part is not removed without its settings. -/
def Headed (kept : Stretch → Bool) (part : Section) : Prop :=
  ∀ setting ∈ part.settings, kept (.line setting) = true → kept (.header part) = true

instance (kept : Stretch → Bool) (part : Section) : Decidable (Headed kept part) :=
  inferInstanceAs (Decidable (∀ setting ∈ part.settings, _ → _))

/-- The settings that are left of a part. -/
def leftOf (kept : Stretch → Bool) (part : Section) : List Setting :=
  part.settings.filter fun setting => kept (.line setting)

/-- What is left of a part in a document: a table, if the header is there. -/
def tableOf (settings : Settings) (kept : Stretch → Bool) (part : Section) : Entries :=
  if kept (.header part) then [(part.name, .table .header (settings.entriesOf (leftOf kept part)))] else []

variable {kept : Stretch → Bool} {part : Section}

theorem Headed.not_line (h : Headed kept part) (hheader : ¬kept (.header part) = true) :
    ∀ setting ∈ part.settings, ¬kept (.line setting) = true :=
  fun setting hsetting hline => hheader (h setting hsetting hline)

/-- Without its header, nothing is left of a part. -/
theorem filter_partStretches (hheaded : Headed kept part) :
    (partStretches part).filter kept =
      if kept (.header part) then .header part :: (leftOf kept part).map .line else [] := by
  rw [partStretches, List.filter_cons, List.filter_map]
  split
  · rfl
  · rename_i hheader
    rw [List.map_eq_nil_iff, List.filter_eq_nil_iff]
    exact hheaded.not_line hheader

/-- **What is left of a part** becomes a table of the document. -/
theorem exists_passes_part {settings : Settings} (hfits : settings.Fits styles) {document : Document}
    (hheaded : Headed kept part)
    (hname : Toml.IsBare part.name.toList) (hnodup : (part.settings.map Setting.key).Nodup)
    (hnew : document.entries.lookup part.name = none) :
    ∃ later, document.Passes (settings.charsOf styles ((partStretches part).filter kept)) later ∧
      later.entries = document.entries ++ settings.tableOf kept part := by
  rw [filter_partStretches hheaded, tableOf]
  split
  · have hleft : ((leftOf kept part).map Setting.key).Nodup := hnodup.sublist (List.filter_sublist.map _)
    have hheader := Document.passes_header hname hnew
    have hlines := passes_lines hfits hnew hleft fun _ _ => List.lookup_nil
    have hchars : settings.charsOf styles (.header part :: (leftOf kept part).map .line) =
        '[' :: (part.name.toList ++ [']', '\n']) ++ (leftOf kept part).flatMap (settings.lineIn styles) := by
      rw [charsOf, List.flatMap_cons, List.flatMap_map]
      rfl
    exact ⟨_, hchars ▸ hheader.append hlines, rfl⟩
  · exact ⟨document, document.passes_nil, (List.append_nil _).symm⟩

/-- No stretch begins with a byte order mark. -/
theorem withoutMark_charsOf (settings : Settings) (styles : Styles) (chosen : List Stretch) :
    Toml.withoutMark (settings.charsOf styles chosen) = settings.charsOf styles chosen := by
  cases chosen with
  | nil => rfl
  | cons stretch chosen =>
    rw [charsOf, List.flatMap_cons]
    cases stretch with
    | header part => rfl
    | line setting => cases setting <;> rfl
    | gap => rfl

theorem lookup_tableOf_of_ne (settings : Settings) (kept : Stretch → Bool) (part : Section) {name : String}
    (hname : name ≠ part.name) : (settings.tableOf kept part).lookup name = none := by
  rw [tableOf]
  split
  · rw [List.lookup_cons, beq_eq_false_iff_ne.2 hname, List.lookup_nil]
  · rfl

/-- **What is left of a settings file** is read as the tables that are left. -/
theorem ofText_renderOnly {settings : Settings} (hfits : settings.Fits styles)
    (hheaded : ∀ part ∈ [Setting.preprocess, Setting.output], Headed kept part) :
    Toml.ofText (settings.renderOnly styles kept) =
      some (settings.tableOf kept Setting.preprocess ++ settings.tableOf kept Setting.output) := by
  obtain ⟨mid, hfirst, hmid⟩ : ∃ mid, Document.Passes {}
      (settings.charsOf styles ((partStretches Setting.preprocess).filter kept)) mid ∧
        mid.entries = settings.tableOf kept Setting.preprocess :=
    exists_passes_part hfits (hheaded _ (by simp)) (.of_all (by decide) rfl) (by decide) rfl
  have hgap : mid.Passes (settings.charsOf styles ([Stretch.gap].filter kept)) mid := by
    cases hkept : kept .gap with
    | true => simpa [charsOf, hkept, Stretch.chars] using mid.passes_blank
    | false => simpa [charsOf, hkept] using mid.passes_nil
  have hnew : mid.entries.lookup Setting.output.name = none := by
    rw [hmid, settings.lookup_tableOf_of_ne kept Setting.preprocess (by decide)]
  obtain ⟨last, hsecond, hlast⟩ :=
    exists_passes_part hfits (hheaded _ (by simp)) (.of_all (by decide) rfl) (by decide) hnew
  have hchars : settings.charsOf styles (stretches.filter kept) =
      settings.charsOf styles ((partStretches Setting.preprocess).filter kept) ++
        settings.charsOf styles ([Stretch.gap].filter kept) ++
        settings.charsOf styles ((partStretches Setting.output).filter kept) := by
    rw [stretches, List.filter_append, List.filter_append]
    simp only [charsOf, List.flatMap_append]
  have hread := ((hfirst.append hgap).append hsecond).expressions_eq
  rw [← hchars] at hread
  rw [Toml.ofText, renderOnly, String.toList_ofList, settings.withoutMark_charsOf]
  simp only [hread, Option.map_some, hlast, hmid]

/-! ## Reading -/

/-- Settings with one of them taken from elsewhere. -/
def adopt (settings base : Settings) : Setting → Settings
  | .stripTags => { base with stripTags := settings.stripTags }
  | .dir => { base with dir := settings.dir }
  | .extension => { base with extension := settings.extension }
  | .write => { base with write := settings.write }

/-- Settings with those of a part that are kept taken from elsewhere. -/
def adoptPart (settings : Settings) (kept : Setting → Bool) (base : Settings) (part : Section) : Settings :=
  part.settings.foldl (fun base setting => if kept setting then settings.adopt base setting else base) base

/-- Settings with the defaults in place of those that are not kept. -/
def keep (settings : Settings) (kept : Setting → Bool) : Settings where
  stripTags := if kept .stripTags then settings.stripTags else true
  dir := if kept .dir then settings.dir else "target/plainmark"
  extension := if kept .extension then settings.extension else "ts"
  write := if kept .write then settings.write else false

theorem set?_item {settings : Settings} (hdir : settings.dir.isText = true) (base : Settings)
    (setting : Setting) : base.set? setting (settings.item setting) = some (settings.adopt base setting) := by
  cases setting with
  | dir => rw [item, set?, of_decide_eq_true hdir, adopt]
  | stripTags | extension | write => rfl

theorem key_injective : Function.Injective Setting.key := by
  intro setting other h
  cases setting <;> cases other <;> first | rfl | simp [Setting.key] at h

theorem lookup_entriesOf (settings : Settings) {chosen : List Setting} {setting : Setting} :
    (settings.entriesOf chosen).lookup setting.key =
      if setting ∈ chosen then some (settings.item setting) else none := by
  induction chosen with
  | nil => rfl
  | cons other chosen ih =>
    rw [entriesOf, List.map_cons, List.lookup_cons]
    by_cases hother : setting = other
    · subst hother
      simp
    · have hkey : (setting.key == other.key) = false :=
        beq_eq_false_iff_ne.2 fun h => hother (key_injective h)
      simp only [hkey, List.mem_cons, hother, false_or]
      exact ih

/-- A setting of a part is read if it is left. -/
theorem readSetting?_leftOf {settings : Settings} (hdir : settings.dir.isText = true) (base : Settings)
    {setting : Setting} (hsetting : setting ∈ part.settings) :
    readSetting? (settings.entriesOf (leftOf kept part)) base setting =
      some (if kept (.line setting) then settings.adopt base setting else base) := by
  rw [readSetting?, lookup_entriesOf]
  by_cases hkept : kept (.line setting) = true
  · have hleft : setting ∈ leftOf kept part := List.mem_filter.2 ⟨hsetting, hkept⟩
    simp only [if_pos hleft, if_pos hkept, set?_item hdir]
  · have hleft : setting ∉ leftOf kept part := fun h => hkept (List.mem_filter.1 h).2
    simp only [if_neg hleft, if_neg hkept]

theorem foldlM_eq_some {α β : Type} {f : β → α → Option β} {g : β → α → β} {l : List α}
    (h : ∀ a ∈ l, ∀ b, f b a = some (g b a)) (b : β) : l.foldlM f b = some (l.foldl g b) := by
  induction l generalizing b with
  | nil => rfl
  | cons a l ih =>
    obtain ⟨ha, hl⟩ := List.forall_mem_cons.1 h
    rw [List.foldlM_cons, ha b, List.foldl_cons]
    exact ih hl _

/-- **What is left of a part** is what is read of it. -/
theorem readSection?_tableOf {settings : Settings} (hdir : settings.dir.isText = true) (base : Settings)
    {entries : Entries} (hheaded : Headed kept part)
    (hentries : entries.lookup part.name = (settings.tableOf kept part).lookup part.name) :
    readSection? entries base part =
      some (settings.adoptPart (fun setting => kept (.line setting)) base part) := by
  rw [readSection?, hentries, tableOf, adoptPart]
  by_cases hheader : kept (.header part) = true
  · rw [if_pos hheader, List.lookup_cons_self]
    exact foldlM_eq_some (fun setting hsetting base => readSetting?_leftOf hdir base hsetting) base
  · have hnone := hheaded.not_line hheader
    rw [if_neg hheader, List.lookup_nil, List.foldl_ext _ (fun base _ => base) base
      fun base setting hsetting => if_neg (hnone setting hsetting), List.foldl_fixed]

/-- Every setting is in one of the two parts. -/
theorem adoptPart_adoptPart (settings : Settings) (kept : Setting → Bool) :
    settings.adoptPart kept (settings.adoptPart kept {} Setting.preprocess) Setting.output =
      settings.keep kept := by
  simp only [adoptPart, Setting.preprocess, Setting.output, List.foldl_cons, List.foldl_nil, keep]
  cases kept .stripTags <;> cases kept .dir <;> cases kept .extension <;> cases kept .write <;> rfl

/-- **What is left of a settings file** is read as the settings that are left, and the others have their
defaults. -/
theorem ofText_kept {settings : Settings} (hdir : settings.dir.isText = true) (hfits : settings.Fits styles)
    (hheaded : ∀ part ∈ [Setting.preprocess, Setting.output], Headed kept part) :
    Settings.ofText (settings.renderOnly styles kept) =
      some (settings.keep fun setting => kept (.line setting)) := by
  have hfirst : (settings.tableOf kept Setting.preprocess ++ settings.tableOf kept Setting.output).lookup
      Setting.preprocess.name = (settings.tableOf kept Setting.preprocess).lookup Setting.preprocess.name := by
    rw [List.lookup_append, settings.lookup_tableOf_of_ne kept Setting.output (by decide), Option.or_none]
  have hsecond : (settings.tableOf kept Setting.preprocess ++ settings.tableOf kept Setting.output).lookup
      Setting.output.name = (settings.tableOf kept Setting.output).lookup Setting.output.name := by
    rw [List.lookup_append, settings.lookup_tableOf_of_ne kept Setting.preprocess (by decide), Option.none_or]
  rw [ofText, ofText_renderOnly hfits hheaded]
  simp only [Option.bind_eq_bind, Option.bind_some, List.foldlM_cons, List.foldlM_nil,
    readSection?_tableOf hdir _ (hheaded _ (by simp)) hfirst,
    readSection?_tableOf hdir _ (hheaded _ (by simp)) hsecond]
  exact congrArg some (settings.adoptPart_adoptPart fun setting => kept (.line setting))

theorem ofText_render {settings : Settings} (hdir : settings.dir.isText = true) :
    Settings.ofText settings.render = some settings := by
  rw [render_eq_renderOnly, ofText_kept hdir settings.fits_styles fun _ _ _ _ _ => rfl]
  rfl

end Settings

/-! ## Files -/

theorem Machine.perform_loadSettings {machine : Machine} {path : Path} {text : String} {settings : Settings}
    (htext : machine.text? path = some text) (hread : Settings.ofText text = some settings) :
    machine.perform (loadSettings path) = (.ok settings, machine) := by
  have hperform : machine.perform (readText path) = (.ok text, machine) := by
    rw [perform_readText, htext]
    rfl
  rw [loadSettings, perform_bind_of_ok hperform, hread]
  rfl

/-- **Settings that are saved are loaded again**, whatever texts they hold, unless a device has taken them. A
file from which settings or whole parts have been removed is loaded too, in whatever styles its texts are
quoted. Then what was removed has its default, and the rest is as it was saved. -/
theorem loadSettings_saved (settings : Settings) (hdir : settings.dir.isText = true) (path : Path)
    (machine : Machine) :
    (∀ after, machine.perform (saveSettings settings path) = (.ok (), after) →
      machine.disk.find? machine.here path ≠ some .sink →
      after.text? path = some (settings.renderOnly settings.styles fun _ => true) ∧
        after.perform (loadSettings path) = (.ok settings, after)) ∧
    ∀ (styles : Settings.Styles) (kept : Settings.Stretch → Bool), settings.Fits styles →
      (∀ part ∈ [Setting.preprocess, Setting.output], Settings.Headed kept part) →
      machine.text? path = some (settings.renderOnly styles kept) →
        machine.perform (loadSettings path) =
          (.ok (settings.keep fun setting => kept (.line setting)), machine) := by
  refine ⟨fun after hsaved hsink => ?_, fun styles kept hfits hheaded htext => ?_⟩
  · rw [saveSettings, if_pos hdir] at hsaved
    have htext := Machine.text?_of_perform_writeText hsaved hsink
    rw [← Settings.render_eq_renderOnly]
    exact ⟨htext, Machine.perform_loadSettings htext (Settings.ofText_render hdir)⟩
  · exact Machine.perform_loadSettings htext (Settings.ofText_kept hdir hfits hheaded)

/-- Settings with quotes, line breaks and a character that needs an escape. -/
def thornySettings : Settings :=
  { stripTags := false, dir := "a\"\"\"\"\n'''\\\x01é", extension := "'\"\t", write := true }

/-- All that is left is the extension, below the header of its part. -/
def extensionOnly : Settings.Stretch → Bool
  | .header part => part.name = "output"
  | .line setting => setting = .extension
  | .gap => true

/-- The extension is quoted as a text on several lines. -/
def literalExtension : Settings.Styles
  | .extension => .literalLines
  | _ => .basic

/-- A machine with a settings file of which only the extension is left. -/
def sparseMachine : Machine where
  disk.entries := [([(Path.ofText settingsFile).bytes],
    .file (thornySettings.renderOnly literalExtension extensionOnly).toUTF8)]

theorem loadSettings_saved_thornySettings :
    thornySettings.dir.isText = true ∧
    (∃ after, Machine.perform {} (saveSettings thornySettings settingsFile) = (.ok (), after) ∧
      after.text? settingsFile = some (thornySettings.renderOnly thornySettings.styles fun _ => true) ∧
      after.perform (loadSettings settingsFile) = (.ok thornySettings, after)) ∧
    sparseMachine.perform (loadSettings settingsFile) = (.ok { extension := "'\"\t" }, sparseMachine) := by
  have hdir : thornySettings.dir.isText = true := by decide +kernel
  have hsaved : Machine.perform {} (saveSettings thornySettings settingsFile) = (.ok (), _) :=
    Prod.ext (by decide +kernel) rfl
  have hsink : Disk.find? {} [] settingsFile ≠ some .sink := by
    have hnone : (Disk.find? {} [] settingsFile).isNone = true := by decide +kernel
    simp [Option.isNone_iff_eq_none.1 hnone]
  have hfits : thornySettings.Fits literalExtension :=
    ⟨trivial, fun c hc => Bool.eq_false_iff.2 (List.any_eq_false.1 rfl c hc), by decide +kernel⟩
  have hheaded : ∀ part ∈ [Setting.preprocess, Setting.output], Settings.Headed extensionOnly part := by
    decide
  have htext : sparseMachine.text? settingsFile =
      some (thornySettings.renderOnly literalExtension extensionOnly) := by
    decide +kernel
  exact ⟨hdir, ⟨_, hsaved, (loadSettings_saved thornySettings hdir settingsFile {}).1 _ hsaved hsink⟩,
    (loadSettings_saved thornySettings hdir settingsFile sparseMachine).2 literalExtension extensionOnly hfits
      hheaded htext⟩

end TemplateCode
