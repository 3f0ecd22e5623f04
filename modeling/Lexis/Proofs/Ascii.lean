import Lexis.Byte
import Lexis.Text.Latin1
import Lexis.Text.Utf8

/-! Bytes below 0x80, for which the two readings of bytes as text agree. -/
namespace Lexis

namespace Byte

theorem toNat_lt_of_isDigit {b : UInt8} (h : isDigit b = true) : b.toNat < 128 := by
  simp only [isDigit, Bool.and_eq_true, decide_eq_true_eq, UInt8.le_iff_toNat_le] at h
  have hle : b.toNat ≤ 0x39 := h.2
  omega

theorem toNat_lt_of_isWordStart {b : UInt8} (h : isWordStart b = true) : b.toNat < 128 := by
  simp only [isWordStart, Bool.or_eq_true, Bool.and_eq_true, decide_eq_true_eq, beq_iff_eq,
    UInt8.le_iff_toNat_le] at h
  rcases h with (⟨-, h⟩ | ⟨-, h⟩) | rfl
  · have hle : b.toNat ≤ 0x5a := h
    omega
  · have hle : b.toNat ≤ 0x7a := h
    omega
  · decide

theorem isWordStart_of_isDigit {b : UInt8} (h : isDigit b = true) : isWordStart b = false := by
  simp only [isDigit, Bool.and_eq_true, decide_eq_true_eq, UInt8.le_iff_toNat_le] at h
  have hle : b.toNat ≤ 0x39 := h.2
  refine Bool.not_eq_true _ ▸ fun hstart => ?_
  simp only [isWordStart, Bool.or_eq_true, Bool.and_eq_true, decide_eq_true_eq, beq_iff_eq,
    UInt8.le_iff_toNat_le] at hstart
  rcases hstart with (⟨hge, -⟩ | ⟨hge, -⟩) | rfl
  · have hge : 0x41 ≤ b.toNat := hge
    omega
  · have hge : 0x61 ≤ b.toNat := hge
    omega
  · exact absurd hle (by decide)

theorem toNat_lt_of_isWordByte {b : UInt8} (h : isWordByte b = true) : b.toNat < 128 := by
  rcases Bool.or_eq_true _ _ ▸ h with h | h
  · exact toNat_lt_of_isWordStart h
  · exact toNat_lt_of_isDigit h

end Byte

namespace Text

theorem ofUInt8_eq_of_toNat_eq {b : UInt8} {c : Char} (h : c.toNat = b.toNat) :
    Char.ofUInt8 b = c :=
  Char.ext (UInt32.toNat_inj.1 ((UInt8.toNat_toUInt32 b).trans h.symm))

theorem utf8EncodeChar_ofUInt8 {b : UInt8} (h : b.toNat < 128) :
    String.utf8EncodeChar (Char.ofUInt8 b) = [b] := by
  have hval : (Char.ofUInt8 b).val.toNat = b.toNat := UInt8.toNat_toUInt32 b
  rw [String.utf8EncodeChar]
  simp only [hval]
  rw [if_pos (by omega), UInt8.ofNat_toNat]

/-- A byte below 0x80 encodes a character on its own. -/
theorem eq_ofUInt8_of_mem_utf8EncodeChar {c : Char} {b : UInt8}
    (hb : b ∈ String.utf8EncodeChar c) (h : b.toNat < 128) : c = Char.ofUInt8 b := by
  have hmax : c.val.toNat < 0xd800 ∨ (0xdfff < c.val.toNat ∧ c.val.toNat < 0x110000) := c.valid
  rw [String.utf8EncodeChar] at hb
  by_cases hval : c.val.toNat ≤ 0x7f
  · simp only [if_pos hval, List.mem_singleton] at hb
    have hnat : b.toNat = c.val.toNat := by
      rw [hb]
      exact UInt8.toNat_ofNat_of_lt' (by simp only [UInt8.size]; omega)
    exact (ofUInt8_eq_of_toNat_eq hnat.symm).symm
  · -- The lead byte and the bytes behind it all have the highest bit.
    have hlarge : 128 ≤ b.toNat := by
      simp only [if_neg hval] at hb
      split at hb
      · simp only [List.mem_cons, List.not_mem_nil, or_false] at hb
        rcases hb with rfl | rfl <;> simp only [UInt8.toNat_ofNat'] <;> omega
      · split at hb
        · simp only [List.mem_cons, List.not_mem_nil, or_false] at hb
          rcases hb with rfl | rfl | rfl <;> simp only [UInt8.toNat_ofNat'] <;> omega
        · simp only [List.mem_cons, List.not_mem_nil, or_false] at hb
          rcases hb with rfl | rfl | rfl | rfl <;> simp only [UInt8.toNat_ofNat'] <;> omega
    omega

theorem utf8EncodeChar_ne_nil (c : Char) : String.utf8EncodeChar c ≠ [] := by
  apply List.ne_nil_of_length_pos
  rw [String.length_utf8EncodeChar]
  exact c.utf8Size_pos

private theorem exists_ofUInt8_of_utf8EncodeChar {c : Char}
    (h : ∀ b ∈ String.utf8EncodeChar c, b.toNat < 128) :
    ∃ b : UInt8, b.toNat < 128 ∧ c = Char.ofUInt8 b := by
  obtain ⟨b, hb⟩ := List.exists_mem_of_ne_nil _ (utf8EncodeChar_ne_nil c)
  exact ⟨b, h b hb, eq_ofUInt8_of_mem_utf8EncodeChar hb (h b hb)⟩

/-- Text that stands for bytes below 0x80, one character each, is encoded by these bytes. -/
theorem utf8_latin1 {bytes : List UInt8} (h : ∀ b ∈ bytes, b.toNat < 128) :
    utf8 (latin1 bytes) = bytes := by
  simp only [utf8, toList_latin1]
  induction bytes with
  | nil => rfl
  | cons b bytes ih =>
    obtain ⟨hb, hbytes⟩ := List.forall_mem_cons.1 h
    rw [List.map_cons, List.flatMap_cons, utf8EncodeChar_ofUInt8 hb, ih hbytes]
    rfl

/-- Text that is encoded by bytes below 0x80 stands for them, one character each. -/
theorem latin1_utf8 {text : String} (h : ∀ b ∈ utf8 text, b.toNat < 128) :
    latin1 (utf8 text) = text := by
  rw [← String.toList_inj, toList_latin1]
  rw [utf8] at h ⊢
  generalize text.toList = chars at h ⊢
  induction chars with
  | nil => rfl
  | cons c chars ih =>
    rw [List.flatMap_cons, List.forall_mem_append] at h
    obtain ⟨hc, hchars⟩ := h
    obtain ⟨b, hb, rfl⟩ := exists_ofUInt8_of_utf8EncodeChar hc
    rw [List.flatMap_cons, List.map_append, ih hchars, utf8EncodeChar_ofUInt8 hb]
    rfl

end Text

end Lexis
