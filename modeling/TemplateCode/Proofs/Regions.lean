import TemplateCode.Markup.Strip
import Mathlib.Data.List.Forall2
import Mathlib.Order.Bounds.Basic
import Mathlib.Tactic.MkIffOfInductiveProp

/-!
# Where regions of markup end

A region is found by what a text reads at its places, a place being the number of characters before it.

* `Tag.Opens`, `Tag.Closes`: a text reads `<tag` or `</tag>`.
* `EndsAt`: where the end of an element leads that is read at a place.
* `RegionAt`: how far the region at the head of a text goes.
* `lengthThrough?_eq_some_iff`: what is searched for is found at the least place where it can be read.
* `regionLength?_eq_some_iff`: the regions that are found are the regions that there are.
-/

namespace TemplateCode.Markup

/-! ## What a text reads -/

/-- A character that stands for a small letter, in either case. A long s stands for an `s`. -/
def StandsFor (letter c : Char) : Prop :=
  c = letter ∨ c = letter.toUpper ∨ letter = 's' ∧ c = 'ſ'

instance (letter c : Char) : Decidable (StandsFor letter c) :=
  inferInstanceAs (Decidable (_ ∨ _ ∨ _ ∧ _))

namespace Tag

/-- A text that spells the tag. -/
def Spelled (tag : Tag) (name : List Char) : Prop :=
  List.Forall₂ StandsFor tag.letters name

/-- A text that begins with `<tag`. -/
def Opens (tag : Tag) (cs : List Char) : Prop :=
  ∃ name rest, tag.Spelled name ∧ cs = '<' :: (name ++ rest)

/-- A text that begins with `</tag>`. -/
def Closes (tag : Tag) (cs : List Char) : Prop :=
  ∃ name rest, tag.Spelled name ∧ cs = '<' :: '/' :: (name ++ '>' :: rest)

/-- The length of `<tag`. -/
def openLength (tag : Tag) : Nat := tag.letters.length + 1

/-- The length of `</tag>`. -/
def closeLength (tag : Tag) : Nat := tag.letters.length + 3

end Tag

/-- The end of an element is read at the place `j` of a text, and leads to the place `stop`. -/
@[mk_iff]
inductive EndsAt (tag : Tag) (cs : List Char) (j : Nat) : (stop : Nat) → Prop
  | selfClosed (h : ['/', '>'] <+: cs.drop j) : EndsAt tag cs j (j + 2)
  | closed {k : Nat} (h : ['>'] <+: cs.drop j) (hk : IsLeast {i | j + 1 ≤ i ∧ tag.Closes (cs.drop i)} k) :
    EndsAt tag cs j (k + tag.closeLength)

/-- A region starts at the head of a text, and goes through to the place `stop`. -/
inductive RegionAt (tag : Tag) (cs : List Char) : (stop : Nat) → Prop
  | comment {k : Nat} (h : ['<', '!', '-', '-'] <+: cs)
    (hk : IsLeast {i | 4 ≤ i ∧ ['-', '-', '>'] <+: cs.drop i} k) : RegionAt tag cs (k + 3)
  /-- The end follows the tag directly. -/
  | bare {stop : Nat} (h : tag.Opens cs) (hstop : EndsAt tag cs tag.openLength stop) : RegionAt tag cs stop
  /-- White space follows the tag, and then the end that is read first. -/
  | spaced {c : Char} {j stop : Nat} (h : tag.Opens cs) (hc : cs[tag.openLength]? = some c)
    (hblank : isBlank c = true)
    (hj : IsLeast {i | tag.openLength + 1 ≤ i ∧ ∃ stop, EndsAt tag cs i stop} j)
    (hstop : EndsAt tag cs j stop) : RegionAt tag cs stop

/-! ## Letters -/

theorem toNat_toLower (c : Char) :
    c.toLower.toNat = if 65 ≤ c.toNat ∧ c.toNat ≤ 90 then c.toNat + 32 else c.toNat := by
  have hrange : 'A'.val ≤ c.val ∧ c.val ≤ 'Z'.val ↔ 65 ≤ c.toNat ∧ c.toNat ≤ 90 := by
    rw [UInt32.le_iff_toNat_le, UInt32.le_iff_toNat_le]
    rfl
  by_cases hc : 'A'.val ≤ c.val ∧ c.val ≤ 'Z'.val
  · have hval : c.toLower.val = c.val + ('a'.val - 'A'.val) := by
      delta Char.toLower
      rw [dif_pos hc]
    have hbound := hrange.1 hc
    have hshift : ('a'.val - 'A'.val).toNat = 32 := rfl
    rw [if_pos hbound, Char.toNat, hval, UInt32.toNat_add, hshift, Char.toNat_val]
    omega
  · rw [if_neg (mt hrange.2 hc)]
    exact congrArg Char.toNat (dif_neg hc)

theorem toNat_toUpper (c : Char) :
    c.toUpper.toNat = if 97 ≤ c.toNat ∧ c.toNat ≤ 122 then c.toNat - 32 else c.toNat := by
  have hrange : 'a'.val ≤ c.val ∧ c.val ≤ 'z'.val ↔ 97 ≤ c.toNat ∧ c.toNat ≤ 122 := by
    rw [UInt32.le_iff_toNat_le, UInt32.le_iff_toNat_le]
    rfl
  by_cases hc : 'a'.val ≤ c.val ∧ c.val ≤ 'z'.val
  · have hval : c.toUpper.val = c.val + ('A'.val - 'a'.val) := by
      delta Char.toUpper
      rw [dif_pos hc]
    have hbound := hrange.1 hc
    -- The difference wraps around.
    have hshift : ('A'.val - 'a'.val).toNat = 2 ^ 32 - 32 := rfl
    rw [if_pos hbound, Char.toNat, hval, UInt32.toNat_add, hshift, Char.toNat_val]
    omega
  · rw [if_neg (mt hrange.2 hc)]
    exact congrArg Char.toNat (dif_neg hc)

/-- The letters of a tag are small. -/
theorem Tag.isSmall {tag : Tag} {letter : Char} (h : letter ∈ tag.letters) :
    97 ≤ letter.toNat ∧ letter.toNat ≤ 122 := by
  have hall : tag.letters.all (fun letter => 97 ≤ letter.toNat ∧ letter.toNat ≤ 122) = true := by
    cases tag <;> decide
  exact of_decide_eq_true (List.all_eq_true.1 hall letter h)

theorem isLetter_iff {letter c : Char} (h : 97 ≤ letter.toNat ∧ letter.toNat ≤ 122) :
    isLetter letter c = true ↔ StandsFor letter c := by
  have hlower : c.toLower = letter ↔ c = letter ∨ c = letter.toUpper := by
    simp only [← Char.toNat_inj, toNat_toLower, toNat_toUpper, if_pos h]
    split <;> omega
  simp [isLetter, StandsFor, hlower, or_assoc]

/-! ## Reading at the head of a text -/

theorem after?_eq_some_iff {same : Char → Char → Bool} {pattern cs rest : List Char} :
    after? same pattern cs = some rest ↔
      ∃ read, List.Forall₂ (fun p c => same p c = true) pattern read ∧ cs = read ++ rest := by
  induction pattern generalizing cs with
  | nil => simp [after?]
  | cons p pattern ih =>
    cases cs with
    | nil => simp [after?, List.forall₂_cons_left_iff]
    | cons c cs =>
      rw [after?]
      constructor
      · intro h
        split at h
        · rename_i hc
          obtain ⟨read, hread, rfl⟩ := ih.1 h
          exact ⟨c :: read, .cons hc hread, rfl⟩
        · cases h
      · rintro ⟨read, hread, hcs⟩
        cases hread with
        | @cons _ c' _ read hc hread =>
          obtain ⟨rfl, rfl⟩ := List.cons.inj hcs
          rw [if_pos hc]
          exact ih.2 ⟨read, hread, rfl⟩

theorem after?_beq_eq_some_iff {pattern cs rest : List Char} :
    after? (· == ·) pattern cs = some rest ↔ cs = pattern ++ rest := by
  have hbeq : (fun p c : Char => (p == c) = true) = Eq := by
    funext p c
    exact propext beq_iff_eq
  simp only [after?_eq_some_iff, hbeq, List.forall₂_eq_eq_eq]
  constructor
  · rintro ⟨read, rfl, rfl⟩
    rfl
  · rintro rfl
    exact ⟨pattern, rfl, rfl⟩

theorem startsWith_iff {pattern cs : List Char} : startsWith pattern cs = true ↔ pattern <+: cs := by
  rw [startsWith, Option.isSome_iff_exists]
  simp only [after?_beq_eq_some_iff]
  constructor
  · rintro ⟨rest, rfl⟩
    exact List.prefix_append _ _
  · rintro ⟨rest, rfl⟩
    exact ⟨rest, rfl⟩

namespace Tag

variable {tag : Tag} {cs rest : List Char}

theorem spelled_iff {name : List Char} :
    tag.Spelled name ↔ List.Forall₂ (fun letter c => isLetter letter c = true) tag.letters name := by
  have hletters : ∀ letter ∈ tag.letters, 97 ≤ letter.toNat ∧ letter.toNat ≤ 122 := fun _ => isSmall
  constructor
  · intro h
    refine ((List.forall₂_and_left _ _).2 ⟨hletters, h⟩).imp ?_
    rintro letter c ⟨hletter, hc⟩
    exact (isLetter_iff hletter).2 hc
  · intro h
    refine ((List.forall₂_and_left _ _).2 ⟨hletters, h⟩).imp ?_
    rintro letter c ⟨hletter, hc⟩
    exact (isLetter_iff hletter).1 hc

theorem after?_letters_eq_some_iff :
    after? isLetter tag.letters cs = some rest ↔ ∃ name, tag.Spelled name ∧ cs = name ++ rest := by
  simp only [after?_eq_some_iff, spelled_iff]

theorem Spelled.length_eq {name : List Char} (h : tag.Spelled name) : name.length = tag.letters.length :=
  (List.Forall₂.length_eq h).symm

/-- Both tags begin with the same letter. -/
theorem Spelled.exists_cons {name : List Char} (h : tag.Spelled name) :
    ∃ c name', name = c :: name' ∧ StandsFor 's' c := by
  have hletters : ∃ letters, tag.letters = 's' :: letters := by
    cases tag
    · exact ⟨_, rfl⟩
    · exact ⟨_, rfl⟩
  obtain ⟨letters, hletters⟩ := hletters
  rw [Spelled, hletters] at h
  obtain ⟨c, name', hc, -, rfl⟩ := List.forall₂_cons_left_iff.1 h
  exact ⟨c, name', rfl, hc⟩

end Tag

theorem commentEnd?_eq_some_iff {cs : List Char} {n : Nat} :
    commentEnd? cs = some n ↔ ['-', '-', '>'] <+: cs ∧ n = 3 := by
  rw [commentEnd?, ← startsWith_iff]
  split <;> simp [*, eq_comm]

theorem closing?_eq_some_iff {tag : Tag} {cs : List Char} {n : Nat} :
    closing? tag cs = some n ↔ tag.Closes cs ∧ n = tag.closeLength := by
  constructor
  · intro h
    unfold closing? at h
    split at h
    · rename_i rest
      split at h
      · rename_i rest' hafter
        obtain ⟨name, hname, rfl⟩ := Tag.after?_letters_eq_some_iff.1 hafter
        exact ⟨⟨name, rest', hname, rfl⟩, (Option.some.inj h).symm⟩
      · cases h
    · cases h
  · rintro ⟨⟨name, rest, hname, rfl⟩, rfl⟩
    have hafter := Tag.after?_letters_eq_some_iff.2 ⟨name, hname, (rfl : name ++ '>' :: rest = _)⟩
    simp only [closing?, hafter]
    rfl

/-! ## Searching -/

/-- What comes first from a place on. -/
theorem isLeast_add_iff {P : Nat → Prop} {start k : Nat} :
    IsLeast {i | start ≤ i ∧ P i} (start + k) ↔ IsLeast {i | P (start + i)} k := by
  constructor
  · rintro ⟨⟨-, hk⟩, hleast⟩
    refine ⟨hk, fun i hi => ?_⟩
    have := hleast ⟨Nat.le_add_right start i, hi⟩
    omega
  · rintro ⟨hk, hleast⟩
    refine ⟨⟨Nat.le_add_right start k, hk⟩, ?_⟩
    rintro i ⟨hi, hPi⟩
    obtain ⟨i, rfl⟩ := Nat.exists_eq_add_of_le hi
    have := hleast hPi
    omega

theorem isLeast_zero_iff {P : Nat → Prop} (h : P 0) {k : Nat} : IsLeast {i | P i} k ↔ k = 0 := by
  constructor
  · intro hk
    have : k ≤ 0 := hk.2 h
    omega
  · rintro rfl
    exact ⟨h, fun i _ => Nat.zero_le i⟩

theorem isLeast_succ_iff {P : Nat → Prop} (h : ¬P 0) {k : Nat} :
    IsLeast {i | P i} k ↔ ∃ j, k = j + 1 ∧ IsLeast {i | P (i + 1)} j := by
  constructor
  · rintro ⟨hk, hleast⟩
    cases k with
    | zero => exact absurd hk h
    | succ j =>
      refine ⟨j, rfl, hk, fun i hi => ?_⟩
      have := hleast hi
      omega
  · rintro ⟨j, rfl, hj, hleast⟩
    refine ⟨hj, fun i hi => ?_⟩
    cases i with
    | zero => exact absurd hi h
    | succ i => exact Nat.succ_le_succ (hleast hi)

/-- A match at the head of a text is found at once. -/
theorem isLeast_match_iff {match? : List Char → Option Nat} {cs : List Char} {length n : Nat}
    (h : match? cs = some length) :
    (∃ k length, IsLeast {i | ∃ length, match? (cs.drop i) = some length} k ∧
      match? (cs.drop k) = some length ∧ n = k + length) ↔ n = length := by
  have hzero : ∀ k, IsLeast {i | ∃ length, match? (cs.drop i) = some length} k ↔ k = 0 := fun k =>
    isLeast_zero_iff (P := fun i => ∃ length, match? (cs.drop i) = some length) ⟨length, h⟩
  simp only [hzero]
  simp [h]

/-- **Searching finds the least place** at which there is a match. -/
theorem lengthThrough?_eq_some_iff {match? : List Char → Option Nat} {cs : List Char} {n : Nat} :
    lengthThrough? match? cs = some n ↔
      ∃ k length, IsLeast {i | ∃ length, match? (cs.drop i) = some length} k ∧
        match? (cs.drop k) = some length ∧ n = k + length := by
  induction cs generalizing n with
  | nil =>
    rw [lengthThrough?]
    cases hhead : match? [] with
    | none => simp [hhead]
    | some length => rw [isLeast_match_iff hhead, Option.some_inj, eq_comm]
  | cons c cs ih =>
    rw [lengthThrough?]
    cases hhead : match? (c :: cs) with
    | some length => rw [isLeast_match_iff hhead, Option.some_or, Option.some_inj, eq_comm]
    | none =>
      have hsucc : ∀ k, IsLeast {i | ∃ length, match? ((c :: cs).drop i) = some length} k ↔
          ∃ j, k = j + 1 ∧ IsLeast {i | ∃ length, match? (cs.drop i) = some length} j := fun k =>
        isLeast_succ_iff (P := fun i => ∃ length, match? ((c :: cs).drop i) = some length)
          (by simp [hhead])
      rw [Option.none_or, Option.map_eq_some_iff]
      constructor
      · rintro ⟨m, hm, rfl⟩
        obtain ⟨j, length, hj, hlength, rfl⟩ := ih.1 hm
        exact ⟨j + 1, length, (hsucc _).2 ⟨j, rfl, hj⟩, hlength, by omega⟩
      · rintro ⟨k, length, hk, hlength, rfl⟩
        obtain ⟨j, rfl, hj⟩ := (hsucc _).1 hk
        exact ⟨j + length, ih.2 ⟨j, length, hj, hlength, rfl⟩, by omega⟩

theorem lengthThrough?_drop_eq_some_iff {match? : List Char → Option Nat} {cs : List Char}
    {start n : Nat} :
    lengthThrough? match? (cs.drop start) = some n ↔
      ∃ k length, IsLeast {i | start ≤ i ∧ ∃ length, match? (cs.drop i) = some length} k ∧
        match? (cs.drop k) = some length ∧ start + n = k + length := by
  simp only [lengthThrough?_eq_some_iff, List.drop_drop]
  constructor
  · rintro ⟨k, length, hk, hlength, rfl⟩
    exact ⟨start + k, length, isLeast_add_iff.2 hk, hlength, by omega⟩
  · rintro ⟨k, length, hk, hlength, hn⟩
    obtain ⟨k, rfl⟩ := Nat.exists_eq_add_of_le hk.1.1
    exact ⟨k, length, isLeast_add_iff.1 hk, hlength, by omega⟩

/-- Searching for what always has the same length. -/
theorem lengthThrough?_drop_of_width {match? : List Char → Option Nat} {P : List Char → Prop} {width : Nat}
    (h : ∀ cs n, match? cs = some n ↔ P cs ∧ n = width) {cs : List Char} {start n : Nat} :
    lengthThrough? match? (cs.drop start) = some n ↔
      ∃ k, IsLeast {i | start ≤ i ∧ P (cs.drop i)} k ∧ start + n = k + width := by
  simp only [lengthThrough?_drop_eq_some_iff, h, exists_and_left, exists_eq, and_true]
  constructor
  · rintro ⟨k, hk, _, ⟨-, rfl⟩, hn⟩
    exact ⟨k, hk, hn⟩
  · rintro ⟨k, hk, hn⟩
    exact ⟨k, hk, width, ⟨hk.1.2, rfl⟩, hn⟩

/-! ## Ends of elements -/

theorem endingBefore?_eq_some_iff {closing : Option Nat} {cs : List Char} {n : Nat} :
    endingBefore? closing cs = some n ↔
      ['/', '>'] <+: cs ∧ n = 2 ∨ ['>'] <+: cs ∧ ∃ length, closing = some length ∧ n = length + 1 := by
  unfold endingBefore?
  split
  · simp [eq_comm]
  · simp [eq_comm]
  · rename_i hself hclosed
    simp only [reduceCtorEq, false_iff]
    rintro (⟨⟨rest, rfl⟩, -⟩ | ⟨⟨rest, rfl⟩, -⟩)
    · exact hself rest rfl
    · exact hclosed rest rfl

theorem EndsAt.lt {tag : Tag} {cs : List Char} {j stop : Nat} (h : EndsAt tag cs j stop) : j < stop := by
  cases h with
  | selfClosed => omega
  | closed _ hk =>
    have := hk.1.1
    omega

theorem ending?_drop_eq_some_iff {tag : Tag} {cs : List Char} {j n : Nat} :
    ending? tag (cs.drop j) = some n ↔ EndsAt tag cs j (j + n) := by
  rw [ending?, endingBefore?_eq_some_iff, List.tail_drop, endsAt_iff]
  simp only [lengthThrough?_drop_of_width fun _ _ => closing?_eq_some_iff]
  refine or_congr ?_ ?_
  · refine and_congr Iff.rfl ?_
    omega
  · constructor
    · rintro ⟨h, length, ⟨k, hk, hlength⟩, rfl⟩
      exact ⟨k, h, hk, by omega⟩
    · rintro ⟨k, h, hk, hn⟩
      have := hk.1.1
      exact ⟨h, k + tag.closeLength - (j + 1), ⟨k, hk, by omega⟩, by omega⟩

/-- **The first end of an element** from a place on. -/
theorem lengthThrough?_ending? {tag : Tag} {cs : List Char} {start n : Nat} :
    lengthThrough? (ending? tag) (cs.drop start) = some n ↔
      ∃ j, IsLeast {i | start ≤ i ∧ ∃ stop, EndsAt tag cs i stop} j ∧ EndsAt tag cs j (start + n) := by
  have hexists : ∀ i, (∃ n, EndsAt tag cs i (i + n)) ↔ ∃ stop, EndsAt tag cs i stop := by
    intro i
    constructor
    · rintro ⟨n, h⟩
      exact ⟨i + n, h⟩
    · rintro ⟨stop, h⟩
      obtain ⟨n, rfl⟩ := Nat.exists_eq_add_of_lt h.lt
      exact ⟨n + 1, h⟩
  simp only [lengthThrough?_drop_eq_some_iff, ending?_drop_eq_some_iff, hexists]
  constructor
  · rintro ⟨j, length, hj, hlength, hn⟩
    exact ⟨j, hj, hn ▸ hlength⟩
  · rintro ⟨j, hj, hstop⟩
    obtain ⟨length, hlength⟩ := Nat.exists_eq_add_of_lt hstop.lt
    exact ⟨j, length + 1, hj, hlength ▸ hstop, hlength⟩

/-- No end of an element begins with white space. -/
theorem EndsAt.exists_getElem? {tag : Tag} {cs : List Char} {j stop : Nat} (h : EndsAt tag cs j stop) :
    ∃ c, cs[j]? = some c ∧ isBlank c = false := by
  rw [← Nat.add_zero j, ← List.getElem?_drop]
  cases h with
  | selfClosed hread =>
    obtain ⟨rest, hrest⟩ := hread
    rw [← hrest]
    exact ⟨'/', rfl, by decide⟩
  | closed hread =>
    obtain ⟨rest, hrest⟩ := hread
    rw [← hrest]
    exact ⟨'>', rfl, by decide⟩

/-! ## Regions -/

section

variable {tag : Tag} {cs : List Char} {n : Nat}

theorem comment?_eq_some_iff :
    comment? cs (lookAhead (outlooks tag cs)) = some n ↔
      ['<', '!', '-', '-'] <+: cs ∧
        ∃ k, IsLeast {i | 4 ≤ i ∧ ['-', '-', '>'] <+: cs.drop i} k ∧ n = k + 3 := by
  have hlook : (lookAhead (outlooks tag cs) 4).comment = lengthThrough? commentEnd? (cs.drop 4) := by
    rw [lookAhead_outlooks]
    rfl
  rw [comment?, hlook, ← startsWith_iff]
  split
  · rename_i hstart
    simp only [hstart, true_and, Option.map_eq_some_iff,
      lengthThrough?_drop_of_width fun _ _ => commentEnd?_eq_some_iff]
    constructor
    · rintro ⟨m, ⟨k, hk, hm⟩, rfl⟩
      exact ⟨k, hk, by omega⟩
    · rintro ⟨k, hk, rfl⟩
      have := hk.1.1
      exact ⟨k + 3 - 4, ⟨k, hk, by omega⟩, by omega⟩
  · rename_i hstart
    simp [hstart]

/-- The tag and the character after it. -/
theorem exists_of_element? {look : Nat → Outlook} (h : element? tag cs look = some n) :
    ∃ name c rest, tag.Spelled name ∧ cs = '<' :: (name ++ c :: rest) := by
  unfold element? at h
  split at h
  · split at h
    · rename_i c rest hafter
      obtain ⟨name, hname, rfl⟩ := Tag.after?_letters_eq_some_iff.1 hafter
      exact ⟨name, c, rest, hname, rfl⟩
    · cases h
  · cases h

theorem Tag.Spelled.drop_open {name rest : List Char} (h : tag.Spelled name) :
    ('<' :: (name ++ rest)).drop tag.openLength = rest := by
  rw [openLength, ← h.length_eq, List.drop_succ_cons, List.drop_left]

theorem Tag.Spelled.getElem?_open {name rest : List Char} (h : tag.Spelled name) :
    ('<' :: (name ++ rest))[tag.openLength]? = rest.head? := by
  rw [← Nat.add_zero tag.openLength, ← List.getElem?_drop, h.drop_open, List.head?_eq_getElem?]

/-- The end of an element is looked for directly after the tag, or else after white space. -/
theorem element?_of_spelled {name rest : List Char} {c : Char} (h : tag.Spelled name)
    (hcs : cs = '<' :: (name ++ c :: rest)) :
    element? tag cs (lookAhead (outlooks tag cs)) =
      if isBlank c then
        (lengthThrough? (ending? tag) (cs.drop (tag.openLength + 1))).map (· + (tag.openLength + 1))
      else (ending? tag (cs.drop tag.openLength)).map (· + tag.openLength) := by
  have hafter := Tag.after?_letters_eq_some_iff.2 ⟨name, h, (rfl : name ++ c :: rest = _)⟩
  have hdrop : cs.drop tag.openLength = c :: rest := by rw [hcs, h.drop_open]
  have hunfold : ∀ look : Nat → Outlook, element? tag cs look =
      (if isBlank c then (look (tag.openLength + 1)).ending.map (· + 1)
        else endingBefore? (look (tag.openLength + 1)).closing (c :: rest)).map (· + tag.openLength) := by
    intro look
    simp only [hcs, element?, hafter]
    rfl
  rw [hunfold, lookAhead_outlooks, ending?, List.tail_drop, hdrop]
  split
  · rw [Option.map_map]
    congr 1
    funext length
    simp only [Function.comp]
    omega
  · rfl

theorem element?_eq_some_iff :
    element? tag cs (lookAhead (outlooks tag cs)) = some n ↔
      tag.Opens cs ∧ (EndsAt tag cs tag.openLength n ∨
        ∃ c j, cs[tag.openLength]? = some c ∧ isBlank c = true ∧
          IsLeast {i | tag.openLength + 1 ≤ i ∧ ∃ stop, EndsAt tag cs i stop} j ∧ EndsAt tag cs j n) := by
  constructor
  · intro h
    obtain ⟨name, c, rest, hname, hcs⟩ := exists_of_element? h
    have hc : cs[tag.openLength]? = some c := by rw [hcs, hname.getElem?_open, List.head?_cons]
    refine ⟨⟨name, c :: rest, hname, hcs⟩, ?_⟩
    rw [element?_of_spelled hname hcs] at h
    split at h
    · rename_i hblank
      obtain ⟨m, hm, rfl⟩ := Option.map_eq_some_iff.1 h
      obtain ⟨j, hj, hstop⟩ := lengthThrough?_ending?.1 hm
      exact Or.inr ⟨c, j, hc, hblank, hj, Nat.add_comm _ m ▸ hstop⟩
    · obtain ⟨m, hm, rfl⟩ := Option.map_eq_some_iff.1 h
      exact Or.inl (Nat.add_comm _ m ▸ ending?_drop_eq_some_iff.1 hm)
  · rintro ⟨⟨name, rest, hname, hcs⟩, hend⟩
    -- In both cases a character follows the tag, and it tells them apart.
    have hfollows : ∀ c, cs[tag.openLength]? = some c → ∃ rest', cs = '<' :: (name ++ c :: rest') := by
      intro c hc
      rw [hcs, hname.getElem?_open] at hc
      obtain ⟨rest', rfl⟩ := List.head?_eq_some_iff.1 hc
      exact ⟨rest', hcs⟩
    rcases hend with hbare | ⟨c, j, hc, hblank, hj, hstop⟩
    · obtain ⟨c, hc, hblank⟩ := hbare.exists_getElem?
      obtain ⟨rest', hcs'⟩ := hfollows c hc
      obtain ⟨m, rfl⟩ := Nat.exists_eq_add_of_lt hbare.lt
      rw [element?_of_spelled hname hcs', if_neg (by rw [hblank]; decide), Option.map_eq_some_iff]
      exact ⟨m + 1, ending?_drop_eq_some_iff.2 hbare, by omega⟩
    · obtain ⟨rest', hcs'⟩ := hfollows c hc
      have hplace := hj.1.1
      obtain ⟨m, rfl⟩ := Nat.exists_eq_add_of_lt (Nat.lt_of_le_of_lt hplace hstop.lt)
      rw [element?_of_spelled hname hcs', if_pos hblank, Option.map_eq_some_iff]
      exact ⟨m + 1, lengthThrough?_ending?.2 ⟨j, hj, hstop⟩, by omega⟩

/-- What begins as an element does not begin as a comment. -/
theorem Tag.Opens.not_comment (h : tag.Opens cs) : ¬['<', '!', '-', '-'] <+: cs := by
  obtain ⟨name, rest, hname, rfl⟩ := h
  obtain ⟨c, name', rfl, hc⟩ := hname.exists_cons
  intro hstart
  have hmark : c = '!' := by
    simp only [List.cons_append, List.cons_prefix_cons] at hstart
    exact hstart.2.1.symm
  subst hmark
  revert hc
  decide

theorem comment?_eq_none_of_opens (h : tag.Opens cs) (look : Nat → Outlook) : comment? cs look = none :=
  if_neg (mt startsWith_iff.1 h.not_comment)

/-- **The regions that are found are the regions that there are.** -/
theorem regionLength?_eq_some_iff :
    regionLength? tag cs (outlooks tag cs) = some n ↔ RegionAt tag cs n := by
  rw [regionLength?, Option.or_eq_some_iff, comment?_eq_some_iff, element?_eq_some_iff]
  constructor
  · rintro (⟨hstart, k, hk, rfl⟩ | ⟨-, hopen, hbare | ⟨c, j, hc, hblank, hj, hstop⟩⟩)
    · exact .comment hstart hk
    · exact .bare hopen hbare
    · exact .spaced hopen hc hblank hj hstop
  · intro h
    cases h with
    | comment hstart hk => exact Or.inl ⟨hstart, _, hk, rfl⟩
    | bare hopen hbare => exact Or.inr ⟨comment?_eq_none_of_opens hopen _, hopen, Or.inl hbare⟩
    | spaced hopen hc hblank hj hstop =>
      exact Or.inr ⟨comment?_eq_none_of_opens hopen _, hopen, Or.inr ⟨_, _, hc, hblank, hj, hstop⟩⟩

theorem RegionAt.unique {m : Nat} (hn : RegionAt tag cs n) (hm : RegionAt tag cs m) : n = m :=
  Option.some.inj ((regionLength?_eq_some_iff.2 hn).symm.trans (regionLength?_eq_some_iff.2 hm))

/-- What is read at a place of a text is within it. -/
theorem add_length_le_of_prefix_drop {word : List Char} {k : Nat} (h : word <+: cs.drop k)
    (hword : 0 < word.length) : k + word.length ≤ cs.length := by
  have := h.length_le
  rw [List.length_drop] at this
  omega

theorem EndsAt.le_length {j : Nat} (h : EndsAt tag cs j n) : n ≤ cs.length := by
  cases h with
  | selfClosed hread => exact add_length_le_of_prefix_drop hread (by decide)
  | @closed k _ hk =>
    obtain ⟨name, rest, hname, hread⟩ := hk.1.2
    have hlength := congrArg List.length hread
    simp only [List.length_drop, List.length_cons, List.length_append, hname.length_eq] at hlength
    rw [Tag.closeLength]
    omega

theorem RegionAt.pos (h : RegionAt tag cs n) : 0 < n := by
  cases h with
  | comment => omega
  | bare _ hstop => exact Nat.zero_lt_of_lt hstop.lt
  | spaced _ _ _ _ hstop => exact Nat.zero_lt_of_lt hstop.lt

theorem RegionAt.le_length (h : RegionAt tag cs n) : n ≤ cs.length := by
  cases h with
  | comment _ hk => exact add_length_le_of_prefix_drop hk.1.2 (by decide)
  | bare _ hstop => exact hstop.le_length
  | spaced _ _ _ _ hstop => exact hstop.le_length

end

end TemplateCode.Markup
