import Mathlib.Data.List.Basic

/-!
# Cuts of UTF-8

The bytes of a valid text are either the first byte of a character or a
continuation byte, `10xxxxxx` (`isContinuation_or_isUTF8FirstByte`), and its
prefixes that are valid are those that no continuation byte follows
(`valid_take_iff_not_isContinuation`).
-/

namespace Utf8

variable {s : List UInt8} {i : Nat} {b : UInt8} {c : Char}

/-- The bytes are the encoding of a list of characters. -/
def Valid (s : List UInt8) : Prop := ∃ cs : List Char, s = cs.flatMap String.utf8EncodeChar

/-- `10xxxxxx` -/
def isContinuation (b : UInt8) : Bool := 128 ≤ b && b < 192

theorem valid_iff : Valid s ↔ s.toByteArray.IsValidUTF8 := by
  constructor
  · rintro ⟨cs, rfl⟩
    exact ⟨cs, rfl⟩
  · rintro ⟨cs, h⟩
    exact ⟨cs, List.toByteArray_inj.mp h⟩

theorem byte_cases {P : UInt8 → Prop} (h : ∀ i : Fin 256, P (UInt8.ofNat i)) (b : UInt8) : P b := by
  rw [← UInt8.ofNat_toNat (x := b)]
  exact h ⟨b.toNat, UInt8.toNat_lt b⟩

theorem not_isUTF8FirstByte_of_isContinuation (h : isContinuation b) : ¬ b.IsUTF8FirstByte := by
  have h' : ∀ b : UInt8, isContinuation b → ¬ b.IsUTF8FirstByte := byte_cases (by decide +kernel)
  exact h' b h

/-- A byte of a character that is not its first. -/
theorem isContinuation_of_mem_tail (h : b ∈ (String.utf8EncodeChar c).tail) :
    isContinuation b := by
  have hbits : ∀ b : UInt8, isContinuation (b &&& 0x3f ||| 0x80) := byte_cases (by decide +kernel)
  obtain hc | hc | hc | hc := c.utf8Size_eq
  · rw [String.utf8EncodeChar_eq_singleton hc] at h
    cases h
  · rw [String.utf8EncodeChar_eq_cons_cons hc] at h
    simp only [List.tail_cons, List.mem_singleton] at h
    rw [h]
    exact hbits _
  · rw [String.utf8EncodeChar_eq_cons_cons_cons hc] at h
    simp only [List.tail_cons, List.mem_cons, List.not_mem_nil, or_false] at h
    rcases h with rfl | rfl <;> exact hbits _
  · rw [String.utf8EncodeChar_eq_cons_cons_cons_cons hc] at h
    simp only [List.tail_cons, List.mem_cons, List.not_mem_nil, or_false] at h
    rcases h with rfl | rfl | rfl <;> exact hbits _

/-- A byte of a valid text is a continuation byte or the first of a character. -/
theorem isContinuation_or_isUTF8FirstByte (hs : Valid s) (hb : b ∈ s) :
    isContinuation b ∨ b.IsUTF8FirstByte := by
  obtain ⟨cs, rfl⟩ := hs
  obtain ⟨c, -, hb⟩ := List.mem_flatMap.mp hb
  obtain ⟨i, hi, rfl⟩ := List.getElem_of_mem hb
  cases i with
  | zero => exact Or.inr (UInt8.isUTF8FirstByte_getElem_utf8EncodeChar.mpr rfl)
  | succ i =>
    refine Or.inl (isContinuation_of_mem_tail (c := c) ?_)
    rw [← List.getElem_tail (by rw [List.length_tail]; omega)]
    exact List.getElem_mem _

/-- A prefix of a valid text is valid just when it ends before a first byte. -/
theorem valid_take_iff (hs : Valid s) (hi : i < s.length) :
    Valid (s.take i) ↔ s[i].IsUTF8FirstByte := by
  have hs := valid_iff.mp hs
  have hext : s.toByteArray.extract 0 i = (s.take i).toByteArray := by
    ext1
    simp
  -- the positions of `s`, read as a string
  let t : String := ⟨s.toByteArray, hs⟩
  have hsize : t.utf8ByteSize = s.length := List.size_toByteArray
  have h₁ := String.Pos.Raw.isValid_iff_isValidUTF8_extract_zero (s := t) (p := ⟨i⟩)
  have h₂ := String.Pos.Raw.isValid_iff_isUTF8FirstByte (s := t) (p := ⟨i⟩)
  simp only [String.Pos.Raw.le_iff, String.Pos.Raw.lt_iff, String.byteIdx_rawEndPos,
    String.Pos.Raw.ext_iff, String.getUTF8Byte, hsize] at h₁ h₂
  have hvalid : Valid (s.take i) ↔ i = s.length ∨ ∃ h : i < s.length, s[i].IsUTF8FirstByte := by
    rw [valid_iff, ← hext]
    exact ⟨fun h => by simpa [t] using h₂.mp (h₁.mpr ⟨Nat.le_of_lt hi, h⟩),
      fun h => (h₁.mp (h₂.mpr (by simpa [t] using h))).2⟩
  rw [hvalid]
  exact ⟨fun h => (h.resolve_left (Nat.ne_of_lt hi)).2, fun h => Or.inr ⟨hi, h⟩⟩

/-- A prefix of a valid text is valid just when no continuation byte follows it. -/
theorem valid_take_iff_not_isContinuation (hs : Valid s) (hi : i < s.length) :
    Valid (s.take i) ↔ isContinuation s[i] = false := by
  rw [valid_take_iff hs hi]
  constructor
  · intro h
    by_contra hc
    exact not_isUTF8FirstByte_of_isContinuation (by simpa using hc) h
  · intro h
    refine (isContinuation_or_isUTF8FirstByte hs (List.getElem_mem hi)).resolve_left ?_
    simp [h]

end Utf8
