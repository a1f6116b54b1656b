/-!
# Byte ranges of a text

A `Span` is a half-open range of UTF-8 byte offsets. It selects a text only if both ends lie on
character boundaries inside the source, in order.

* `Span.slice` is the selected text, `Span.readOr` the same with a text to fall back on.
* `Span.slice_eq_some_iff` says what is selected: the middle part of the source, if it is cut into
  three where the span says.
-/

namespace TemplateCode

/-- A range of byte offsets, from `start` up to but not including `stop`. The ends may be given in
any order; an inverted range selects nothing. -/
structure Span where
  start : Nat := 0
  stop : Nat := 0
deriving DecidableEq, Inhabited, Repr

/-- Whether a text can be cut after a number of bytes. -/
abbrev IsBoundary (source : String) (offset : Nat) : Prop :=
  String.Pos.Raw.IsValid source ⟨offset⟩

theorem isBoundary_iff {source : String} {offset : Nat} :
    IsBoundary source offset ↔ ∃ a b, source = a ++ b ∧ offset = a.utf8ByteSize := by
  rw [IsBoundary, String.Pos.Raw.isValid_iff_exists_append]
  simp [String.Pos.Raw.ext_iff]

namespace Span

/-- The text that a span selects from `source`, if it selects any. -/
def slice (span : Span) (source : String) : Option String :=
  if h : span.start ≤ span.stop ∧ IsBoundary source span.start ∧ IsBoundary source span.stop then
    some (source.extract ⟨⟨span.start⟩, h.2.1⟩ ⟨⟨span.stop⟩, h.2.2⟩)
  else
    none

/-- A span selects what stands between its ends, and selects nothing if the source cannot be cut
there. -/
theorem slice_eq_some_iff {span : Span} {source text : String} :
    span.slice source = some text ↔
      ∃ a b, source = a ++ text ++ b ∧ span.start = a.utf8ByteSize ∧
        span.stop = a.utf8ByteSize + text.utf8ByteSize := by
  rw [slice]
  constructor
  · intro h
    split at h
    · rename_i hb
      have hle : (⟨⟨span.start⟩, hb.2.1⟩ : source.Pos) ≤ ⟨⟨span.stop⟩, hb.2.2⟩ := hb.1
      rw [String.extract_eq_copy_slice _ _ hle, Option.some.injEq] at h
      obtain ⟨a, b, hstart, hstop⟩ := String.copy_slice_eq_iff_splits.1 ⟨hle, h⟩
      refine ⟨a, b, hstop.eq_append, ?_, ?_⟩
      · simpa [String.Pos.Raw.ext_iff] using hstart.offset_eq_rawEndPos
      · simpa [String.Pos.Raw.ext_iff] using hstop.offset_eq_rawEndPos
    · simp at h
  · rintro ⟨a, b, rfl, hstart, hstop⟩
    have hb : span.start ≤ span.stop ∧ IsBoundary (a ++ text ++ b) span.start ∧
        IsBoundary (a ++ text ++ b) span.stop :=
      ⟨by omega, isBoundary_iff.2 ⟨a, text ++ b, by simp [String.append_assoc], hstart⟩,
        isBoundary_iff.2 ⟨a ++ text, b, rfl, by simp [hstop]⟩⟩
    have h₁ : String.Pos.Splits (⟨⟨span.start⟩, hb.2.1⟩ : (a ++ text ++ b).Pos) a (text ++ b) :=
      ⟨by simp [String.append_assoc], by simp [String.Pos.Raw.ext_iff, hstart]⟩
    have h₂ : String.Pos.Splits (⟨⟨span.stop⟩, hb.2.2⟩ : (a ++ text ++ b).Pos) (a ++ text) b :=
      ⟨rfl, by simp [String.Pos.Raw.ext_iff, hstop]⟩
    obtain ⟨hle, h⟩ := String.copy_slice_eq_iff_splits.2 ⟨a, b, h₁, h₂⟩
    rw [dif_pos hb, String.extract_eq_copy_slice _ _ hle, h]

/-- The text that a span selects from `source`, or `fallback` if it selects none. -/
def readOr (fallback source : String) (span : Span) : String :=
  (span.slice source).getD fallback

/-- The text that a span selects from `source`, empty if it selects none. -/
def readIn (source : String) (span : Span) : String :=
  span.readOr "" source

/-- Both ends moved back to `length` where they lie beyond it. -/
def clamp (span : Span) (length : Nat) : Span :=
  ⟨min span.start length, min span.stop length⟩

/-- The number of bytes covered, none for an inverted span. -/
def length (span : Span) : Nat :=
  span.stop - span.start

end Span

end TemplateCode
