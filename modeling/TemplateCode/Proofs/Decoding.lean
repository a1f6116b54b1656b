import TemplateCode.Path

/-!
# Texts and bytes

Reading the bytes of a text gives the text. Other bytes can be read too, with something else in place of what
encodes no character, so that different bytes may be read alike.

* `Utf8.decodeFrom_encode`: characters are found again in their bytes.
* `Utf8.slash_mem_of_mem_decodeFrom`, `Utf8.slash_mem_of_mem_encode`: nothing but a slash is read or written as
  one.
* `Path.text_ofText`: the path of a text is shown as the text, so `Path.isText_iff`: some paths are those of
  texts.
-/

namespace TemplateCode

namespace Utf8

/-! ## Reading what was written -/

theorem toNat_ofNat {value : Nat} (h : value < 256) : (UInt8.ofNat value).toNat = value := by
  rw [UInt8.toNat_ofNat', Nat.mod_eq_of_lt h]

theorem decodeFrom_cons (pending : Option Pending) (byte : UInt8) (bytes : List UInt8) :
    decodeFrom pending (byte :: bytes) =
      (step pending byte).1 ++ decodeFrom (step pending byte).2 bytes := by
  cases pending <;> rfl

theorem decodeFrom_lead {value : Nat} (hvalue : value < 256) {pending : Pending}
    (h : lead value = ([], some pending)) (bytes : List UInt8) :
    decodeFrom none (UInt8.ofNat value :: bytes) = decodeFrom (some pending) bytes := by
  rw [decodeFrom_cons, step, toNat_ofNat hvalue, h]
  rfl

/-- A byte that may stand where it does ends a character, or leaves it with one byte less to come. -/
theorem decodeFrom_trail {pending : Pending} {value : Nat} (hlow : pending.low ≤ value)
    (hhigh : value ≤ pending.high) (hvalue : value < 256) (bytes : List UInt8) :
    decodeFrom (some pending) (UInt8.ofNat value :: bytes) =
      match pending.more with
      | 0 => Char.ofNat (pending.bits * 64 + (value - 0x80)) :: decodeFrom none bytes
      | more + 1 => decodeFrom (some { more, bits := pending.bits * 64 + (value - 0x80) }) bytes := by
  rw [decodeFrom_cons, step, trail, toNat_ofNat hvalue, if_pos ⟨hlow, hhigh⟩]
  cases pending.more <;> rfl

/-- The first byte of two. -/
theorem lead_two {value : Nat} (hlow : 0xC2 ≤ value) (hhigh : value < 0xE0) :
    lead value = ([], some { more := 0, bits := value - 0xC0 }) := by
  rw [lead, if_neg (by omega), if_neg (by omega), if_pos hhigh]

/-- The first byte of three. -/
theorem lead_three {value : Nat} (hlow : 0xE0 ≤ value) (hhigh : value < 0xF0) :
    lead value = ([], some
      ⟨1, value - 0xE0, if value = 0xE0 then 0xA0 else 0x80, if value = 0xED then 0x9F else 0xBF⟩) := by
  rw [lead, if_neg (by omega), if_neg (by omega), if_neg (by omega), if_pos hhigh]

/-- The first byte of four. -/
theorem lead_four {value : Nat} (hlow : 0xF0 ≤ value) (hhigh : value < 0xF5) :
    lead value = ([], some
      ⟨2, value - 0xF0, if value = 0xF0 then 0x90 else 0x80, if value = 0xF4 then 0x8F else 0xBF⟩) := by
  rw [lead, if_neg (by omega), if_neg (by omega), if_neg (by omega), if_neg (by omega), if_pos hhigh]

/-- **A character is found again** in its bytes. -/
theorem decodeFrom_encodeChar (c : Char) (bytes : List UInt8) :
    decodeFrom none (String.utf8EncodeChar c ++ bytes) = c :: decodeFrom none bytes := by
  have hc : Char.ofNat c.val.toNat = c := Char.ofNat_toNat c
  have hvalid : c.val.toNat < 0xD800 ∨ 0xDFFF < c.val.toNat ∧ c.val.toNat < 0x110000 := c.valid
  unfold String.utf8EncodeChar
  generalize c.val.toNat = value at hc hvalid
  dsimp only
  split
  · rw [List.singleton_append, decodeFrom_cons, step, toNat_ofNat (by omega), lead, if_pos (by omega), hc]
    rfl
  · split
    · have hbits : (value / 64 % 32 + 192 - 0xC0) * 64 + (value % 64 + 128 - 0x80) = value := by omega
      rw [List.cons_append, List.singleton_append,
        decodeFrom_lead (by omega) (lead_two (by omega) (by omega)),
        decodeFrom_trail (by dsimp only; omega) (by dsimp only; omega) (by omega)]
      dsimp only
      rw [hbits, hc]
    · split
      · have hbits : ((value / 4096 % 16 + 224 - 0xE0) * 64 + (value / 64 % 64 + 128 - 0x80)) * 64 +
            (value % 64 + 128 - 0x80) = value := by omega
        rw [List.cons_append, List.cons_append, List.singleton_append,
          decodeFrom_lead (by omega) (lead_three (by omega) (by omega)),
          decodeFrom_trail (by dsimp only; split <;> omega) (by dsimp only; split <;> omega) (by omega)]
        dsimp only
        rw [decodeFrom_trail (by dsimp only; omega) (by dsimp only; omega) (by omega)]
        dsimp only
        rw [hbits, hc]
      · have hbits : (((value / 262144 % 8 + 240 - 0xF0) * 64 + (value / 4096 % 64 + 128 - 0x80)) * 64 +
            (value / 64 % 64 + 128 - 0x80)) * 64 + (value % 64 + 128 - 0x80) = value := by omega
        rw [List.cons_append, List.cons_append, List.cons_append, List.singleton_append,
          decodeFrom_lead (by omega) (lead_four (by omega) (by omega)),
          decodeFrom_trail (by dsimp only; split <;> omega) (by dsimp only; split <;> omega) (by omega)]
        dsimp only
        rw [decodeFrom_trail (by dsimp only; omega) (by dsimp only; omega) (by omega)]
        dsimp only
        rw [decodeFrom_trail (by dsimp only; omega) (by dsimp only; omega) (by omega)]
        dsimp only
        rw [hbits, hc]

/-- **Characters are found again** in their bytes. -/
theorem decodeFrom_encode (cs : List Char) : decodeFrom none (encode cs) = cs := by
  induction cs with
  | nil => rfl
  | cons c cs ih =>
    rw [encode, List.flatMap_cons, decodeFrom_encodeChar]
    exact congrArg (c :: ·) ih

theorem encode_append (cs cs' : List Char) : encode (cs ++ cs') = encode cs ++ encode cs' :=
  List.flatMap_append

theorem encode_injective {cs cs' : List Char} (h : encode cs = encode cs') : cs = cs' := by
  rw [← decodeFrom_encode cs, h, decodeFrom_encode]

/-! ## Slashes -/

theorem slash_mem_encodeChar {c : Char} (h : Path.slash ∈ String.utf8EncodeChar c) : c = '/' := by
  have hc : Char.ofNat c.val.toNat = c := Char.ofNat_toNat c
  have hbyte : ∀ {value : Nat}, value < 256 → Path.slash = UInt8.ofNat value → value = 47 := by
    intro value hvalue hslash
    rw [← toNat_ofNat hvalue, ← hslash]
    rfl
  unfold String.utf8EncodeChar at h
  generalize c.val.toNat = value at hc h
  dsimp only at h
  split at h
  · have hvalue := hbyte (by omega) (List.mem_singleton.1 h)
    rw [← hc, hvalue]
  -- every byte of a longer encoding is beyond the numbers of ASCII
  · exfalso
    split at h
    · simp only [List.mem_cons, List.not_mem_nil, or_false] at h
      rcases h with h | h <;> have := hbyte (by omega) h <;> omega
    · split at h
      · simp only [List.mem_cons, List.not_mem_nil, or_false] at h
        rcases h with h | h | h <;> have := hbyte (by omega) h <;> omega
      · simp only [List.mem_cons, List.not_mem_nil, or_false] at h
        rcases h with h | h | h | h <;> have := hbyte (by omega) h <;> omega

theorem slash_mem_of_mem_encode {cs : List Char} (h : Path.slash ∈ encode cs) : '/' ∈ cs := by
  obtain ⟨c, hc, hslash⟩ := List.mem_flatMap.1 h
  exact slash_mem_encodeChar hslash ▸ hc

/-- The beginning of a character that has more than one byte, so that it is no slash in the end. -/
structure Pending.Wide (pending : Pending) : Prop where
  low : 0x80 ≤ pending.low
  first : 2 ≤ pending.bits * 64 + (pending.low - 0x80)
  last : pending.more = 0 → 2 ≤ pending.bits

theorem wide_lead {value : Nat} {pending : Pending} (h : (lead value).2 = some pending) : pending.Wide := by
  unfold lead at h
  split at h
  · cases h
  · split at h
    · cases h
    · split at h
      · cases h
        exact ⟨by simp, by simp; omega, by simp; omega⟩
      · split at h
        · cases h
          refine ⟨?_, ?_, by simp⟩ <;> dsimp only <;> split <;> omega
        · split at h
          · cases h
            refine ⟨?_, ?_, by simp⟩ <;> dsimp only <;> split <;> omega
          · cases h

theorem wide_trail {pending next : Pending} (hwide : pending.Wide) {value : Nat}
    (h : (trail pending value).2 = some next) : next.Wide := by
  obtain ⟨hlow, hfirst, -⟩ := hwide
  unfold trail at h
  split at h
  · dsimp only at h
    split at h
    · cases h
    · cases h
      exact ⟨by simp, by dsimp only; omega, fun _ => by dsimp only; omega⟩
  · exact wide_lead h

theorem eq_of_ofNat_eq_slash {value : Nat} (h : Char.ofNat value = '/') : value = 47 := by
  by_cases hvalid : value.isValidChar
  · rw [Char.ofNat, dif_pos hvalid] at h
    exact congrArg Char.toNat h
  · rw [Char.ofNat, dif_neg hvalid] at h
    cases h

theorem eq_of_slash_mem_lead {value : Nat} (h : '/' ∈ (lead value).1) : value = 47 := by
  have hreplaced : '/' ≠ replacement := by decide
  unfold lead at h
  split at h
  · exact eq_of_ofNat_eq_slash (List.mem_singleton.1 h).symm
  · split at h
    · exact absurd (List.mem_singleton.1 h) hreplaced
    · split at h
      · cases h
      · split at h
        · cases h
        · split at h
          · cases h
          · exact absurd (List.mem_singleton.1 h) hreplaced

theorem eq_of_slash_mem_trail {pending : Pending} (hwide : pending.Wide) {value : Nat}
    (h : '/' ∈ (trail pending value).1) : value = 47 := by
  unfold trail at h
  split at h
  · dsimp only at h
    split at h
    · rename_i hmore
      have hbits := hwide.last hmore
      have hvalue := eq_of_ofNat_eq_slash (List.mem_singleton.1 h).symm
      omega
    · cases h
  · rcases List.mem_cons.1 h with h | h
    · exact absurd h (by decide)
    · exact eq_of_slash_mem_lead h

/-- **Nothing but a slash is read as one.** -/
theorem slash_mem_of_mem_decodeFrom {pending : Option Pending} (hwide : ∀ begun ∈ pending, begun.Wide)
    {bytes : List UInt8} (h : '/' ∈ decodeFrom pending bytes) : Path.slash ∈ bytes := by
  have hreplaced : '/' ≠ replacement := by decide
  induction bytes generalizing pending with
  | nil =>
    cases pending with
    | none => cases h
    | some begun => exact absurd (List.mem_singleton.1 h) hreplaced
  | cons byte bytes ih =>
    rw [decodeFrom_cons, List.mem_append] at h
    rcases h with h | h
    · have hbyte : byte.toNat = 47 := by
        cases pending with
        | none => exact eq_of_slash_mem_lead h
        | some begun => exact eq_of_slash_mem_trail (hwide begun rfl) h
      exact List.mem_cons.2 (Or.inl (UInt8.toNat_inj.1 hbyte.symm))
    · refine List.mem_cons_of_mem _ (ih (fun begun hbegun => ?_) h)
      cases pending with
      | none => exact wide_lead hbegun
      | some earlier => exact wide_trail (hwide earlier rfl) hbegun

/-! ## Something is read -/

theorem decodeFrom_some_ne_nil (pending : Pending) (bytes : List UInt8) :
    decodeFrom (some pending) bytes ≠ [] := by
  induction bytes generalizing pending with
  | nil => exact List.cons_ne_nil _ _
  | cons byte bytes ih =>
    rw [decodeFrom_cons, step, trail]
    split
    · dsimp only
      split
      · exact List.cons_ne_nil _ _
      · exact ih _
    · exact List.cons_ne_nil _ _

theorem decodeFrom_cons_ne_nil (byte : UInt8) (bytes : List UInt8) : decodeFrom none (byte :: bytes) ≠ [] := by
  rw [decodeFrom_cons, step, lead]
  split
  · exact List.cons_ne_nil _ _
  · split
    · exact List.cons_ne_nil _ _
    · split
      · exact decodeFrom_some_ne_nil _ _
      · split
        · exact decodeFrom_some_ne_nil _ _
        · split
          · exact decodeFrom_some_ne_nil _ _
          · exact List.cons_ne_nil _ _

end Utf8

/-! ## Paths that are texts -/

namespace Path

/-- **The path of a text** is shown as the text. -/
@[simp] theorem text_ofText (text : String) : (ofText text).text = text := by
  rw [Path.text, ofText, Utf8.decode, Utf8.decodeFrom_encode, String.ofList_toList]

@[simp] theorem isText_ofText (text : String) : (ofText text).isText = true := by
  rw [isText, text_ofText, decide_eq_true rfl]

theorem isText_iff {path : Path} : path.isText = true ↔ ∃ text, path = ofText text := by
  refine ⟨fun h => ⟨path.text, (of_decide_eq_true h).symm⟩, ?_⟩
  rintro ⟨text, rfl⟩
  exact isText_ofText text

end Path

end TemplateCode
