import TemplateCode.Toml.Quote
import TemplateCode.Toml.Text
import Mathlib.Data.List.Basic

/-!
# Texts that are quoted are read back

Every text has a style that it is written in, and reading what was written gives the text, whatever it
holds. Texts on several lines need the most care. There, the quotes that end a text may follow quotes that
belong to it, so a reader that is at a quote has to know how many quotes come with it.

* `Toml.escapeChar_cases`: a character stands for itself or is one of two kinds of escapes.
* `Toml.basicText_escapeText`, `Toml.literalText_append`: texts on one line.
* `Toml.Closes`: how quotes are read on several lines, `Toml.Closes.read_replicate`: quotes that end nothing.
* `Toml.basicLines_escapeLines`, `Toml.literalLines_append`: texts on several lines.
* `Toml.quotedText_quote`: **a quoted text is read back**.
-/

namespace TemplateCode.Toml

variable {c : Char} {text rest cs : List Char}

/-! ## Characters -/

theorem codePoint?_fourHexDigits (h : needsEscape c = true) : codePoint? (fourHexDigits c.toNat) = some c := by
  have hsmall : c.toNat < 128 := by
    simp only [needsEscape, Bool.or_eq_true, Bool.and_eq_true, decide_eq_true_eq] at h
    omega
  have hcodes : ∀ code < 128, codePoint? (fourHexDigits code) = some (Char.ofNat code) := by decide +kernel
  rw [hcodes c.toNat hsmall, Char.ofNat_toNat]

theorem isPlain_of_not_needsEscape (h : needsEscape c = false) (hbreak : c ≠ '\n') : isPlain c = true := by
  by_cases htab : c = '\t'
  · simp [isPlain, htab]
  · simp only [needsEscape, htab, hbreak, ne_eq, not_false_eq_true, decide_true, Bool.and_true,
      Bool.or_eq_false_iff, decide_eq_false_iff_not, Nat.not_lt] at h
    simp [isPlain, h.1, h.2]

/-- **How a character is written** between double quotes: by a letter, by its code, or as it is. -/
theorem escapeChar_cases (c : Char) (hquote : c ≠ '"') (hbreak : c ≠ '\n') :
    (∃ letter ∈ ['b', 't', 'f', 'r', '\\'], escapeChar c = ['\\', letter] ∧ escaped? letter = some c) ∨
    (∃ a b d e, escapeChar c = ['\\', 'u', a, b, d, e] ∧ codePoint? [a, b, d, e] = some c) ∨
    escapeChar c = [c] ∧ isPlain c = true ∧ c ≠ '\\' ∧ c ≠ '\r' := by
  by_cases hletter : c ∈ ['\x08', '\t', '\x0c', '\r', '\\']
  · left
    simp only [List.mem_cons, List.not_mem_nil, or_false] at hletter
    rcases hletter with rfl | rfl | rfl | rfl | rfl
    · exact ⟨'b', by decide, rfl, rfl⟩
    · exact ⟨'t', by decide, rfl, rfl⟩
    · exact ⟨'f', by decide, rfl, rfl⟩
    · exact ⟨'r', by decide, rfl, rfl⟩
    · exact ⟨'\\', by decide, rfl, rfl⟩
  · right
    simp only [List.mem_cons, List.not_mem_nil, or_false, not_or] at hletter
    obtain ⟨hback, htab, hfeed, hreturn, hslash⟩ := hletter
    cases hescape : needsEscape c with
    | true =>
      left
      refine ⟨_, _, _, _, ?_, codePoint?_fourHexDigits hescape⟩
      simp [escapeChar, hback, htab, hfeed, hreturn, hslash, hescape, fourHexDigits]
    | false =>
      right
      refine ⟨?_, isPlain_of_not_needsEscape hescape hbreak, hslash, hreturn⟩
      simp [escapeChar, hback, htab, hfeed, hreturn, hslash, hescape]

/-- What is written for a character other than a quote and a line break starts with neither. -/
theorem head_escapeChar (hquote : c ≠ '"') (hbreak : c ≠ '\n') (cs : List Char) :
    ∃ first more, escapeChar c ++ cs = first :: more ∧ first ≠ '"' ∧ first ≠ '\n' ∧ first ≠ '\r' := by
  rcases escapeChar_cases c hquote hbreak with
    ⟨letter, -, hwritten, -⟩ | ⟨a, b, d, e, hwritten, -⟩ | ⟨hwritten, -, -, hreturn⟩
  · exact ⟨'\\', letter :: cs, by rw [hwritten]; rfl, by decide, by decide, by decide⟩
  · exact ⟨'\\', 'u' :: a :: b :: d :: e :: cs, by rw [hwritten]; rfl, by decide, by decide, by decide⟩
  · exact ⟨c, cs, by rw [hwritten]; rfl, hquote, hbreak, hreturn⟩

/-! ## On one line -/

theorem basicText_plain (hplain : isPlain c = true) (hslash : c ≠ '\\') (hquote : c ≠ '"') (cs : List Char) :
    basicText (c :: cs) = push (some c) (basicText cs) := by
  simp [basicText, hplain, hslash]

theorem basicText_escapeChar (hquote : c ≠ '"') (hbreak : c ≠ '\n') (cs : List Char) :
    basicText (escapeChar c ++ cs) = push (some c) (basicText cs) := by
  rcases escapeChar_cases c hquote hbreak with
    ⟨letter, hletter, hwritten, hescaped⟩ | ⟨a, b, d, e, hwritten, hcode⟩ | ⟨hwritten, hplain, hslash, -⟩
  · rw [hwritten, ← hescaped]
    simp only [List.mem_cons, List.not_mem_nil, or_false] at hletter
    rcases hletter with rfl | rfl | rfl | rfl | rfl <;> rfl
  · rw [hwritten, ← hcode]
    rfl
  · rw [hwritten]
    exact basicText_plain hplain hslash hquote cs

theorem basicText_escapeText (text rest : List Char) :
    basicText (escapeText text ++ '"' :: rest) = some (text, rest) := by
  induction text with
  | nil => rfl
  | cons c text ih =>
    rw [escapeText, List.append_assoc]
    split
    · rename_i hquote
      subst hquote
      exact congrArg (push (some '"')) ih
    · rename_i hquote
      split
      · rename_i hbreak
        subst hbreak
        exact congrArg (push (some '\n')) ih
      · rename_i hbreak
        rw [basicText_escapeChar hquote hbreak, ih]
        rfl

theorem literalText_append (hplain : ∀ c ∈ text, isPlain c = true ∧ c ≠ '\'') (rest : List Char) :
    literalText (text ++ '\'' :: rest) = some (text, rest) := by
  induction text with
  | nil => rfl
  | cons c text ih =>
    obtain ⟨⟨hc, hquote⟩, htext⟩ := List.forall_mem_cons.1 hplain
    rw [List.cons_append, literalText, if_pos hc, ih htext]
    · rfl
    · exact hquote

/-! ## On several lines -/

attribute [local simp] basicLines literalLines

/-- How quotes are read between three of them. Three end the text, and so do up to two more, of which the
first ones belong to it. A quote that is not followed by two others stands for itself. -/
structure Closes (quote : Char) (read : Reads (List Char)) : Prop where
  close : ∀ count ≤ 2, ∀ rest, read (List.replicate count quote ++ quote :: quote :: quote :: '\n' :: rest) =
    some (List.replicate count quote, '\n' :: rest)
  single : ∀ cs, (∀ more, cs ≠ quote :: quote :: more) → read (quote :: cs) = push (some quote) (read cs)

/-- Up to two quotes before something else stand for themselves. -/
theorem Closes.read_replicate {quote : Char} {read : Reads (List Char)} (h : Closes quote read) {count : Nat}
    (hcount : count ≤ 2) (hhead : cs.head? ≠ some quote) (hread : read cs = some (text, rest)) :
    read (List.replicate count quote ++ cs) = some (List.replicate count quote ++ text, rest) := by
  induction count with
  | zero => exact hread
  | succ count ih =>
    have hfew : ∀ more, List.replicate count quote ++ cs ≠ quote :: quote :: more := by
      intro more hmore
      obtain rfl | rfl : count = 0 ∨ count = 1 := by omega
      · obtain rfl : cs = quote :: quote :: more := hmore
        simp at hhead
      · obtain rfl : cs = quote :: more := (List.cons.inj hmore).2
        simp at hhead
    rw [List.replicate_succ, List.cons_append, h.single _ hfew, ih (by omega)]
    rfl

theorem basicLines_plain (hplain : isPlain c = true) (hslash : c ≠ '\\') (hquote : c ≠ '"')
    (hreturn : c ≠ '\r') (hbreak : c ≠ '\n') (cs : List Char) :
    basicLines .outside (c :: cs) = push (some c) (basicLines .outside cs) := by
  rw [basicLines]
  · rw [if_pos (by simp [hplain, hslash])]
  all_goals simp [hslash, hquote, hreturn, hbreak]

theorem closes_basicLines : Closes '"' (basicLines .outside) where
  close count hcount rest := by
    obtain rfl | rfl | rfl : count = 0 ∨ count = 1 ∨ count = 2 := by omega
    all_goals rfl
  single cs hcs := by
    rw [basicLines]
    · rfl
    all_goals simp [hcs]

theorem basicLines_escapeChar (hquote : c ≠ '"') (hbreak : c ≠ '\n') (cs : List Char) :
    basicLines .outside (escapeChar c ++ cs) = push (some c) (basicLines .outside cs) := by
  rcases escapeChar_cases c hquote hbreak with
    ⟨letter, hletter, hwritten, hescaped⟩ | ⟨a, b, d, e, hwritten, hcode⟩ | ⟨hwritten, hplain, hslash, hreturn⟩
  · rw [hwritten, ← hescaped]
    simp only [List.mem_cons, List.not_mem_nil, or_false] at hletter
    rcases hletter with rfl | rfl | rfl | rfl | rfl <;> rfl
  · rw [hwritten, ← hcode]
    rfl
  · rw [hwritten]
    exact basicLines_plain hplain hslash hquote hreturn hbreak cs

/-- **A text on several lines between double quotes** is read back. The reader is at the quotes just
written, of which there are at most two, since the next one is escaped. -/
theorem basicLines_escapeLines (seen : Nat) (hseen : seen ≤ 2) (text rest : List Char) :
    basicLines .outside
        (List.replicate seen '"' ++ (escapeLines seen text ++ '"' :: '"' :: '"' :: '\n' :: rest)) =
      some (List.replicate seen '"' ++ text, '\n' :: rest) := by
  induction text generalizing seen with
  | nil => simpa [escapeLines] using closes_basicLines.close seen hseen rest
  | cons c text ih =>
    have hnext := ih 0 (by omega)
    rw [List.replicate_zero, List.nil_append, List.nil_append] at hnext
    rw [escapeLines]
    split
    · rename_i hquote
      subst hquote
      split
      · rename_i hfew
        have hmore := ih (seen + 1) (by omega)
        rw [List.replicate_succ', List.append_assoc, List.append_assoc] at hmore
        exact hmore
      · refine closes_basicLines.read_replicate hseen (by simp) ?_
        exact congrArg (push (some '"')) hnext
    · rename_i hquote
      split
      · rename_i hbreak
        subst hbreak
        refine closes_basicLines.read_replicate hseen (by simp) ?_
        exact congrArg (push (some '\n')) hnext
      · rename_i hbreak
        obtain ⟨first, more, hwritten, hfirst, -⟩ :=
          head_escapeChar hquote hbreak (escapeLines 0 text ++ '"' :: '"' :: '"' :: '\n' :: rest)
        rw [List.append_assoc]
        refine closes_basicLines.read_replicate hseen (by rw [hwritten]; simpa using hfirst) ?_
        rw [basicLines_escapeChar hquote hbreak, hnext]
        rfl

theorem closes_literalLines : Closes '\'' literalLines where
  close count hcount rest := by
    obtain rfl | rfl | rfl : count = 0 ∨ count = 1 ∨ count = 2 := by omega
    all_goals rfl
  single cs hcs := by
    rw [literalLines]
    · rfl
    all_goals simp [hcs]

theorem literalLines_cons (hescape : needsEscape c = false) (hquote : c ≠ '\'') (cs : List Char) :
    literalLines (c :: cs) = push (some c) (literalLines cs) := by
  by_cases hbreak : c = '\n'
  · subst hbreak
    rfl
  · have hreturn : c ≠ '\r' := by
      rintro rfl
      cases hescape
    simp [isPlain_of_not_needsEscape hescape hbreak, hquote, hreturn]

/-- **A text on several lines between single quotes** is read back, if it never has three of them in a row. -/
theorem literalLines_append (seen : Nat) (hseen : seen ≤ 2) (hescape : ∀ c ∈ text, needsEscape c = false)
    (htriple : hasTriple '\'' seen text = false) (rest : List Char) :
    literalLines (List.replicate seen '\'' ++ (text ++ '\'' :: '\'' :: '\'' :: '\n' :: rest)) =
      some (List.replicate seen '\'' ++ text, '\n' :: rest) := by
  induction text generalizing seen with
  | nil => simpa using closes_literalLines.close seen hseen rest
  | cons c text ih =>
    obtain ⟨hc, htext⟩ := List.forall_mem_cons.1 hescape
    rw [hasTriple] at htriple
    split at htriple
    · rename_i hquote
      subst hquote
      obtain ⟨hfew, htriple⟩ := Bool.or_eq_false_iff.1 htriple
      have hmore := ih (seen + 1) (by simp at hfew; omega) htext htriple
      rw [List.replicate_succ', List.append_assoc, List.append_assoc] at hmore
      exact hmore
    · rename_i hquote
      have hnext := ih 0 (by omega) htext htriple
      refine closes_literalLines.read_replicate hseen (by simpa using hquote) ?_
      rw [List.cons_append, literalLines_cons hc hquote]
      exact congrArg (push (some c)) hnext

/-! ## Every style -/

theorem quotedText_basic (h : ∀ more, cs ≠ '"' :: '"' :: more) : quotedText ('"' :: cs) = basicText cs := by
  rw [quotedText]
  exact h

theorem quotedText_literal (h : ∀ more, cs ≠ '\'' :: '\'' :: more) :
    quotedText ('\'' :: cs) = literalText cs := by
  rw [quotedText]
  exact h

/-- The line break after the opening quotes is not part of the text. If none is written, the text does not
begin with one. -/
theorem withoutFirstBreak_append
    (h : '\n' ∉ text → ∃ first more, cs = first :: more ∧ first ≠ '\n' ∧ first ≠ '\r') :
    withoutFirstBreak (firstBreak text ++ cs) = cs := by
  by_cases hbreak : '\n' ∈ text
  · simp [firstBreak, hbreak, withoutFirstBreak, afterBreak?]
  · obtain ⟨first, more, rfl, hnewline, hreturn⟩ := h hbreak
    simp [firstBreak, hbreak, withoutFirstBreak, afterBreak?, hnewline, hreturn]

/-- What a text may hold in a style. -/
def Style.Fits (text : List Char) : Style → Prop
  | .literal => ∀ c ∈ text, isPlain c = true ∧ c ≠ '\''
  | .literalLines => (∀ c ∈ text, needsEscape c = false) ∧ hasTriple '\'' 0 text = false
  | _ => True

theorem fits_styleOf (text : List Char) : (styleOf text).Fits text := by
  unfold styleOf
  dsimp only
  split_ifs with hbasic hliteral hbasicLines hliteralLines hbreak
  · trivial
  · simp only [Bool.and_eq_true, Bool.not_eq_true', List.any_eq_false, List.contains_eq_mem,
      decide_eq_false_iff_not, Bool.not_eq_true] at hliteral
    obtain ⟨⟨hescape, hquote⟩, hbreak⟩ := hliteral
    exact fun c hc => ⟨isPlain_of_not_needsEscape (hescape c hc) (ne_of_mem_of_not_mem hc hbreak),
      ne_of_mem_of_not_mem hc hquote⟩
  · trivial
  · simp only [Bool.and_eq_true, Bool.not_eq_true', List.any_eq_false, Bool.not_eq_true] at hliteralLines
    exact hliteralLines
  · trivial
  · trivial

/-- Only an empty text is written with a quote after the opening one. -/
theorem escapeText_append_ne (text rest more : List Char) :
    escapeText text ++ '"' :: '\n' :: rest ≠ '"' :: '"' :: more := by
  cases text with
  | nil => simp [escapeText]
  | cons c text =>
    rw [escapeText, List.append_assoc]
    split
    · simp
    · rename_i hquote
      split
      · simp
      · rename_i hbreak
        obtain ⟨first, after, hwritten, hfirst, -⟩ :=
          head_escapeChar hquote hbreak (escapeText text ++ '"' :: '\n' :: rest)
        simp [hwritten, hfirst]

theorem escapeLines_append_eq_cons (hbreak : '\n' ∉ text) (rest : List Char) :
    ∃ first more, escapeLines 0 text ++ '"' :: rest = first :: more ∧ first ≠ '\n' ∧ first ≠ '\r' := by
  cases text with
  | nil => exact ⟨'"', rest, rfl, by decide, by decide⟩
  | cons c text =>
    have hc : c ≠ '\n' := ne_of_mem_of_not_mem List.mem_cons_self hbreak
    by_cases hquote : c = '"'
    · exact ⟨'"', escapeLines 1 text ++ '"' :: rest, by simp [escapeLines, hquote], by decide, by decide⟩
    · obtain ⟨first, more, hwritten, -, hfirst⟩ :=
        head_escapeChar hquote hc (escapeLines 0 text ++ '"' :: rest)
      refine ⟨first, more, ?_, hfirst⟩
      rw [← hwritten, escapeLines, if_neg hquote, if_neg hc, List.append_assoc]

theorem append_eq_cons_of_not_needsEscape (hescape : ∀ c ∈ text, needsEscape c = false) (hbreak : '\n' ∉ text)
    (rest : List Char) :
    ∃ first more, text ++ '\'' :: rest = first :: more ∧ first ≠ '\n' ∧ first ≠ '\r' := by
  cases text with
  | nil => exact ⟨'\'', rest, rfl, by decide, by decide⟩
  | cons c text =>
    refine ⟨c, text ++ '\'' :: rest, rfl, ?_, ?_⟩
    · exact ne_of_mem_of_not_mem List.mem_cons_self hbreak
    · rintro rfl
      exact absurd (hescape '\r' List.mem_cons_self) (by decide)

/-- **A quoted text is read back**, in whatever style it fits, if its line ends after it. -/
theorem quotedText_quote {style : Style} (h : style.Fits text) (rest : List Char) :
    quotedText (style.quote text ++ '\n' :: rest) = some (text, '\n' :: rest) := by
  cases style with
  | basic =>
    rw [Style.quote, List.cons_append, List.cons_append, List.append_assoc, List.singleton_append,
      quotedText_basic (escapeText_append_ne text rest)]
    exact basicText_escapeText text ('\n' :: rest)
  | literal =>
    rw [Style.quote, List.cons_append, List.cons_append, List.append_assoc, List.singleton_append,
      quotedText_literal]
    · exact literalText_append h ('\n' :: rest)
    · cases text with
      | nil => simp
      | cons c text => simp [(h c List.mem_cons_self).2]
  | basicLines =>
    have hwritten : Style.quote .basicLines text ++ '\n' :: rest = '"' :: '"' :: '"' ::
        (firstBreak text ++ (escapeLines 0 text ++ '"' :: '"' :: '"' :: '\n' :: rest)) := by
      simp [Style.quote]
    rw [hwritten, quotedText, withoutFirstBreak_append fun hbreak => escapeLines_append_eq_cons hbreak _]
    exact basicLines_escapeLines 0 (by omega) text rest
  | literalLines =>
    have hwritten : Style.quote .literalLines text ++ '\n' :: rest = '\'' :: '\'' :: '\'' ::
        (firstBreak text ++ (text ++ '\'' :: '\'' :: '\'' :: '\n' :: rest)) := by
      simp [Style.quote]
    rw [hwritten, quotedText,
      withoutFirstBreak_append fun hbreak => append_eq_cons_of_not_needsEscape h.1 hbreak _]
    exact literalLines_append 0 (by omega) h.1 h.2 rest

end TemplateCode.Toml
