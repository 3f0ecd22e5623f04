import Mathlib.Algebra.Group.Nat.Defs
import Mathlib.Data.List.Induction
import Lexis.Proofs.LossyDecoding

/-! What the text of malformed bytes replaces.
The bytes of a character become this character. Where no character stands, one replacement character
stands for the bytes that begin one, as far as they go, or for one byte that begins none. -/
namespace Lexis.Text.Utf8

def Begins (part : List UInt8) : Prop :=
  ∃ c, part <+: String.utf8EncodeChar c

/-- The characters that bytes stand for, with one replacement for each maximal part of a character
that breaks off and for each byte that begins none. -/
inductive Decodes : List UInt8 → List Char → Prop
  | nil : Decodes [] []
  | character (c : Char) {bytes text} : Decodes bytes text →
      Decodes (String.utf8EncodeChar c ++ bytes) (c :: text)
  | broken {part bytes text} : part ≠ [] → Begins part → (∀ c, String.utf8EncodeChar c ≠ part) →
      (∀ b ∈ bytes.head?, ¬ Begins (part ++ [b])) →
      Decodes bytes text → Decodes (part ++ bytes) (replacement :: text)
  | stray {b bytes text} : ¬ Begins [b] →
      Decodes bytes text → Decodes (b :: bytes) (replacement :: text)

/-! The numbers of characters. -/

def lastBytes : Nat → Nat → List UInt8
  | 0, _ => []
  | count + 1, n => .ofNat (n / 64 ^ count % 64 + 0x80) :: lastBytes count n

theorem utf8EncodeChar_ofNat {n : Nat} (h : n.isValidChar) :
    String.utf8EncodeChar (Char.ofNat n) =
      if n < 0x80 then [.ofNat n]
      else if n < 0x800 then .ofNat (n / 64 + 0xc0) :: lastBytes 1 n
      else if n < 0x10000 then .ofNat (n / 4096 + 0xe0) :: lastBytes 2 n
      else .ofNat (n / 262144 + 0xf0) :: lastBytes 3 n := by
  have hval : (Char.ofNat n).val.toNat = n := by
    rw [Char.ofNat, dif_pos h]
    rfl
  have hmax : n < 0x110000 := by
    rcases h with h | h <;> omega
  rw [String.utf8EncodeChar]
  simp only [hval, ← Nat.lt_succ_iff, Nat.succ_eq_add_one, Nat.reduceAdd, lastBytes, Nat.pow_zero,
    Nat.div_one, Nat.reducePow]
  split
  · rfl
  split
  · next h2 => rw [Nat.mod_eq_of_lt (a := n / 64) (by omega)]
  split
  · next h3 => rw [Nat.mod_eq_of_lt (a := n / 4096) (by omega)]
  · rw [Nat.mod_eq_of_lt (a := n / 262144) (by omega)]

namespace Pending

/-- The number has the bits read so far, and its next six bits are those of a byte that continues
the sequence. -/
structure Covers (p : Pending) (n : Nat) : Prop where
  bits_eq : n / 64 ^ (p.later + 1) = p.bits
  least_le : p.least.toNat ≤ n / 64 ^ p.later % 64 + 0x80
  le_greatest : n / 64 ^ p.later % 64 + 0x80 ≤ p.greatest.toNat

/-- The sequence is spelled out so far, and what may continue it leads to characters only. -/
structure Spells (p : Pending) (part : List UInt8) : Prop where
  least_ge : 0x80 ≤ p.least.toNat
  least_le : p.least.toNat ≤ p.greatest.toNat
  greatest_lt : p.greatest.toNat < 0xc0
  encodes : ∀ n, p.Covers n → n.isValidChar ∧
    String.utf8EncodeChar (Char.ofNat n) = part ++ lastBytes (p.later + 1) n

theorem covers_two {lead n : Nat} (hlow : 0xc2 ≤ lead) (hhigh : lead < 0xe0) :
    (two lead).Covers n ↔ n / 64 + 0xc0 = lead := by
  obtain ⟨hleast, hgreatest⟩ := ranges_two lead
  constructor
  · rintro ⟨hbits, -, -⟩
    have hbits : n / 64 = lead - 0xc0 := hbits
    omega
  · intro hlead
    have hbits : n / 64 = lead - 0xc0 := by omega
    refine ⟨hbits, ?_, ?_⟩
    · rw [later_two]
      omega
    · rw [later_two]
      omega

/-- The ranges keep out overlong forms and surrogates. -/
theorem covers_three {lead n : Nat} (hlow : 0xe0 ≤ lead) (hhigh : lead < 0xf0) :
    (three lead).Covers n ↔ n / 4096 + 0xe0 = lead ∧ 0x800 ≤ n ∧ n.isValidChar := by
  obtain ⟨hleast, hgreatest⟩ := ranges_three lead
  rw [Nat.isValidChar]
  constructor
  · rintro ⟨hbits, hle, hge⟩
    rw [later_three] at hle hge
    have hbits : n / 4096 = lead - 0xe0 := hbits
    omega
  · rintro ⟨hlead, hn, hvalid⟩
    have hbits : n / 4096 = lead - 0xe0 := by omega
    refine ⟨hbits, ?_, ?_⟩
    · rw [later_three]
      omega
    · rw [later_three]
      omega

/-- The ranges keep out overlong forms and numbers beyond the last code point. -/
theorem covers_four {lead n : Nat} (hlow : 0xf0 ≤ lead) (hhigh : lead < 0xf5) :
    (four lead).Covers n ↔ n / 262144 + 0xf0 = lead ∧ 0x10000 ≤ n ∧ n < 0x110000 := by
  obtain ⟨hleast, hgreatest⟩ := ranges_four lead
  constructor
  · rintro ⟨hbits, hle, hge⟩
    rw [later_four] at hle hge
    have hbits : n / 262144 = lead - 0xf0 := hbits
    omega
  · rintro ⟨hlead, hn, hvalid⟩
    have hbits : n / 262144 = lead - 0xf0 := by omega
    refine ⟨hbits, ?_, ?_⟩
    · rw [later_four]
      omega
    · rw [later_four]
      omega

end Pending

theorem spells_of_start {b : UInt8} {p : Pending} (h : start b = .sequence p) : p.Spells [b] := by
  rw [start_eq] at h
  split at h
  · cases h
  split at h
  · cases h
  -- The byte may start a sequence of two, three or four bytes.
  split at h
  · next hlow hhigh =>
    obtain rfl := Start.sequence.inj h
    obtain ⟨hleast, hgreatest⟩ := Pending.ranges_two b.toNat
    refine ⟨by omega, by omega, by omega, ?_⟩
    intro n hn
    have hlead := (Pending.covers_two (Nat.not_lt.1 hlow) hhigh).1 hn
    have hvalid : n.isValidChar := .inl (by omega)
    refine ⟨hvalid, ?_⟩
    rw [utf8EncodeChar_ofNat hvalid, if_neg (by omega), if_pos (by omega), hlead, UInt8.ofNat_toNat]
    rfl
  split at h
  · next hlow hhigh =>
    obtain rfl := Start.sequence.inj h
    obtain ⟨hleast, hgreatest⟩ := Pending.ranges_three b.toNat
    refine ⟨by omega, by omega, by omega, ?_⟩
    intro n hn
    obtain ⟨hlead, hlarge, hvalid⟩ := (Pending.covers_three (Nat.not_lt.1 hlow) hhigh).1 hn
    refine ⟨hvalid, ?_⟩
    rw [utf8EncodeChar_ofNat hvalid, if_neg (by omega), if_neg (by omega), if_pos (by omega), hlead,
      UInt8.ofNat_toNat]
    rfl
  split at h
  · next hlow hhigh =>
    obtain rfl := Start.sequence.inj h
    obtain ⟨hleast, hgreatest⟩ := Pending.ranges_four b.toNat
    refine ⟨by omega, by omega, by omega, ?_⟩
    intro n hn
    obtain ⟨hlead, hlarge, hsmall⟩ := (Pending.covers_four (Nat.not_lt.1 hlow) hhigh).1 hn
    have hvalid : n.isValidChar := .inr ⟨by omega, hsmall⟩
    refine ⟨hvalid, ?_⟩
    rw [utf8EncodeChar_ofNat hvalid, if_neg (by omega), if_neg (by omega), if_neg (by omega), hlead,
      UInt8.ofNat_toNat]
    rfl
  · cases h

namespace Pending

/-- A byte that continues the sequence gives the next six bits. -/
theorem Spells.encodes_of_div {p : Pending} {part : List UInt8} (h : p.Spells part) {b : UInt8}
    (hrange : p.least ≤ b ∧ b ≤ p.greatest) {n : Nat}
    (hn : n / 64 ^ p.later = p.bits * 64 + (b.toNat - 0x80)) :
    n.isValidChar ∧
      String.utf8EncodeChar (Char.ofNat n) = part ++ [b] ++ lastBytes p.later n := by
  have hleast := UInt8.le_iff_toNat_le.1 hrange.1
  have hgreatest := UInt8.le_iff_toNat_le.1 hrange.2
  have hge := h.least_ge
  have hlt := h.greatest_lt
  have hbyte : n / 64 ^ p.later % 64 + 0x80 = b.toNat := by omega
  have hbits : n / 64 ^ (p.later + 1) = p.bits := by
    rw [Nat.pow_succ, ← Nat.div_div_eq_div_mul]
    omega
  obtain ⟨hvalid, hencoded⟩ := h.encodes n ⟨hbits, by omega, by omega⟩
  refine ⟨hvalid, ?_⟩
  rw [hencoded, lastBytes, hbyte, UInt8.ofNat_toNat, List.append_cons]

theorem Spells.append {p : Pending} {part : List UInt8} (h : p.Spells part) {b : UInt8}
    (hrange : p.least ≤ b ∧ b ≤ p.greatest) {later : Nat} (hlater : p.later = later + 1) :
    Spells ⟨p.bits * 64 + (b.toNat - 0x80), later, 0x80, 0xbf⟩ (part ++ [b]) := by
  refine ⟨by simp, by simp, by simp, ?_⟩
  intro n hn
  have hbits := hn.bits_eq
  simp only at hbits ⊢
  rw [← hlater] at hbits ⊢
  exact h.encodes_of_div hrange hbits

theorem Spells.begins {p : Pending} {part : List UInt8} (h : p.Spells part) : Begins part := by
  have hrange : p.least ≤ p.least ∧ p.least ≤ p.greatest :=
    ⟨UInt8.le_refl _, UInt8.le_iff_toNat_le.2 h.least_le⟩
  have hpos : 0 < 64 ^ p.later := Nat.pow_pos (by decide)
  obtain ⟨-, hencoded⟩ := h.encodes_of_div hrange (Nat.mul_div_left _ hpos)
  rw [List.append_assoc] at hencoded
  exact ⟨_, _, hencoded.symm⟩

/-- The first of the last bytes continues the sequence. -/
theorem Covers.next {p : Pending} {n : Nat} (h : p.Covers n) :
    let b := UInt8.ofNat (n / 64 ^ p.later % 64 + 0x80)
    (p.least ≤ b ∧ b ≤ p.greatest) ∧ p.bits * 64 + (b.toNat - 0x80) = n / 64 ^ p.later := by
  intro b
  have hbyte : b.toNat = n / 64 ^ p.later % 64 + 0x80 :=
    UInt8.toNat_ofNat_of_lt' (by simp only [UInt8.size]; omega)
  have hbits := h.bits_eq
  rw [Nat.pow_succ, ← Nat.div_div_eq_div_mul] at hbits
  refine ⟨⟨UInt8.le_iff_toNat_le.2 ?_, UInt8.le_iff_toNat_le.2 ?_⟩, ?_⟩
  · rw [hbyte]
    exact h.least_le
  · rw [hbyte]
    exact h.le_greatest
  · omega

end Pending

/-! The bytes of a character. -/

/-- A character is a byte of its own, or it starts a sequence that its number continues. -/
theorem start_utf8EncodeChar (c : Char) :
    (∃ b, start b = .character c ∧ String.utf8EncodeChar c = [b]) ∨
      ∃ b p, start b = .sequence p ∧ p.Covers c.toNat ∧
        String.utf8EncodeChar c = b :: lastBytes (p.later + 1) c.toNat := by
  have hvalid : c.toNat.isValidChar := c.valid
  have hencoded := utf8EncodeChar_ofNat hvalid
  rw [Char.ofNat_toNat] at hencoded
  rw [hencoded]
  have hlead {m : Nat} (h : m < 0x100) : (UInt8.ofNat m).toNat = m := UInt8.toNat_ofNat_of_lt' h
  have hcharacter : c.toNat < 0x80 → Char.ofUInt8 (.ofNat c.toNat) = c := fun h =>
    ofUInt8_eq_of_toNat_eq (hlead (by omega)).symm
  rw [Nat.isValidChar] at hvalid
  generalize c.toNat = n at *
  split
  · next hone =>
    left
    refine ⟨_, ?_, rfl⟩
    rw [start_of_lt (by rwa [hlead (by omega)]), hcharacter hone]
  right
  split
  · have hstart : start (.ofNat (n / 64 + 0xc0)) = .sequence (.two (n / 64 + 0xc0)) := by
      rw [start_eq, hlead (by omega), if_neg (by omega), if_neg (by omega), if_pos (by omega)]
    exact ⟨_, _, hstart, (Pending.covers_two (by omega) (by omega)).2 rfl, rfl⟩
  split
  · have hstart : start (.ofNat (n / 4096 + 0xe0)) = .sequence (.three (n / 4096 + 0xe0)) := by
      rw [start_eq, hlead (by omega), if_neg (by omega), if_neg (by omega), if_neg (by omega),
        if_pos (by omega)]
    have hcovers : (Pending.three (n / 4096 + 0xe0)).Covers n :=
      (Pending.covers_three (by omega) (by omega)).2 ⟨rfl, by omega, hvalid⟩
    exact ⟨_, _, hstart, hcovers, rfl⟩
  · have hstart : start (.ofNat (n / 262144 + 0xf0)) = .sequence (.four (n / 262144 + 0xf0)) := by
      rw [start_eq, hlead (by omega), if_neg (by omega), if_neg (by omega), if_neg (by omega),
        if_neg (by omega), if_pos (by omega)]
    have hcovers : (Pending.four (n / 262144 + 0xf0)).Covers n :=
      (Pending.covers_four (by omega) (by omega)).2 ⟨rfl, by omega, by omega⟩
    exact ⟨_, _, hstart, hcovers, rfl⟩

namespace State

/-- The bytes that continue a sequence complete the character of the number. -/
theorem foldl_next_lastBytes (decoded : List Char) {p : Pending} {n : Nat} (h : p.Covers n) :
    (lastBytes (p.later + 1) n).foldl next ⟨decoded, some p⟩ = ⟨Char.ofNat n :: decoded, none⟩ := by
  obtain ⟨bits, later, least, greatest⟩ := p
  induction later generalizing bits least greatest with
  | zero =>
    obtain ⟨hrange, hbits⟩ := h.next
    simp only [Nat.pow_zero, Nat.div_one] at hrange hbits
    simp only [lastBytes, List.foldl_cons, List.foldl_nil, next, if_pos hrange, hbits,
      Nat.pow_zero, Nat.div_one]
  | succ later ih =>
    obtain ⟨hrange, hbits⟩ := h.next
    simp only at hrange hbits
    simp only [lastBytes, List.foldl_cons, next, if_pos hrange, hbits]
    refine ih _ _ _ ⟨rfl, ?_, ?_⟩
    · exact Nat.le_add_left _ _
    · have hlt := Nat.mod_lt (n / 64 ^ later) (y := 64) (by decide)
      simp only [UInt8.reduceToNat]
      omega

theorem foldl_next_utf8EncodeChar (c : Char) :
    (String.utf8EncodeChar c).foldl next ⟨[], none⟩ = ⟨[c], none⟩ := by
  rcases start_utf8EncodeChar c with ⟨b, hstart, hencoded⟩ | ⟨b, p, hstart, hcovers, hencoded⟩
  · rw [hencoded, List.foldl_cons, List.foldl_nil, next, begin, hstart]
  · rw [hencoded, List.foldl_cons, next, begin, hstart]
    simp only
    rw [foldl_next_lastBytes [] hcovers, Char.ofNat_toNat]

theorem length_finish_le_foldl_next (s : State) (bytes : List UInt8) :
    s.finish.length ≤ (bytes.foldl next s).finish.length := by
  induction bytes generalizing s with
  | nil => exact Nat.le_refl _
  | cons b bytes ih => exact Nat.le_trans (s.length_finish_next b).2.1 (ih (s.next b))

end State

theorem decode_character (c : Char) (bytes : List UInt8) :
    decode (String.utf8EncodeChar c ++ bytes) = c :: decode bytes := by
  rw [decode, List.foldl_append, State.foldl_next_utf8EncodeChar, finish_foldl_next]
  rfl

/-! Sequences that break off. -/

def Pending.After (p : Pending) (part : List UInt8) : Prop :=
  part.foldl State.next ⟨[], none⟩ = ⟨[], some p⟩

theorem State.begin_eq_some {decoded : List Char} {b : UInt8} {p : Pending}
    (h : begin decoded b = ⟨[], some p⟩) : decoded = [] ∧ start b = .sequence p := by
  rw [begin] at h
  split at h
  · cases h
  · next q hstart =>
    obtain ⟨hdecoded, hq⟩ := State.mk.inj h
    exact ⟨hdecoded, hstart.trans (congrArg _ (Option.some.inj hq))⟩
  · cases h

namespace Pending.After

variable {p : Pending} {part : List UInt8}

theorem spells (h : p.After part) : p.Spells part := by
  induction part using List.reverseRecOn generalizing p with
  | nil => cases h
  | append_singleton part b ih =>
    rw [After, List.foldl_append, List.foldl_cons, List.foldl_nil] at h
    generalize hs : part.foldl State.next ⟨[], none⟩ = s at h
    rcases s.next_cases b with ⟨q, hq, hrange, ⟨-, hnext⟩ | ⟨later, hlater, hnext⟩⟩ | hnext
    · rw [hnext] at h
      cases h
    · rw [hnext] at h
      obtain ⟨hdecoded, hp⟩ := State.mk.inj h
      obtain rfl := Option.some.inj hp
      have hafter : q.After part := by
        rw [After, hs, ← hdecoded, ← hq]
      exact (ih hafter).append hrange hlater
    · rw [hnext] at h
      obtain ⟨hfinish, hstart⟩ := State.begin_eq_some h
      have hpart : part = [] := by
        by_contra hne
        rw [List.reverse_eq_nil_iff, ← hs] at hfinish
        exact decode_ne_nil hne hfinish
      rw [hpart]
      exact spells_of_start hstart

theorem ne_nil (h : p.After part) : part ≠ [] := by
  rintro rfl
  cases h

theorem utf8EncodeChar_ne (h : p.After part) (c : Char) : String.utf8EncodeChar c ≠ part := by
  rintro rfl
  rw [After, State.foldl_next_utf8EncodeChar] at h
  cases h

/-- A byte behind the sequence completes a character, or continues the sequence, or breaks it off and
is read anew. -/
theorem cases_next (h : p.After part) (b : UInt8) :
    (∃ c, String.utf8EncodeChar c = part ++ [b]) ∨ (∃ q : Pending, q.After (part ++ [b])) ∨
      (State.next ⟨[], some p⟩ b = State.begin [replacement] b ∧ ¬ Begins (part ++ [b])) := by
  have hread : (part ++ [b]).foldl State.next ⟨[], none⟩ = State.next ⟨[], some p⟩ b := by
    rw [List.foldl_append, h]
    rfl
  rcases State.next_cases ⟨[], some p⟩ b with
    ⟨q, hq, hrange, ⟨hlater, -⟩ | ⟨later, -, hnext⟩⟩ | hnext
  · obtain rfl := Option.some.inj hq
    obtain ⟨-, hencoded⟩ := h.spells.encodes_of_div hrange (n := p.bits * 64 + (b.toNat - 0x80))
      (by rw [hlater, Nat.pow_zero, Nat.div_one])
    rw [hlater, lastBytes, List.append_nil] at hencoded
    exact .inl ⟨_, hencoded⟩
  · exact .inr (.inl ⟨_, hread.trans hnext⟩)
  · refine .inr (.inr ⟨hnext, ?_⟩)
    -- Two characters are read by now, and none of them is taken away.
    rintro ⟨c, more, hmore⟩
    have hlength := State.length_finish_le_foldl_next (State.next ⟨[], some p⟩ b) more
    rw [← hread, ← List.foldl_append, hmore, State.foldl_next_utf8EncodeChar, hread, hnext,
      State.length_finish_begin] at hlength
    exact absurd hlength (Nat.not_succ_le_self 1)

/-- Where the sequence can neither be completed nor continued, it is replaced. -/
theorem decode_append (h : p.After part) {bytes : List UInt8}
    (hbroken : ∀ b ∈ bytes.head?, ¬ Begins (part ++ [b])) :
    decode (part ++ bytes) = replacement :: decode bytes := by
  rw [decode, List.foldl_append, h]
  cases bytes with
  | nil => rfl
  | cons b bytes =>
    have hbegin : State.next ⟨[], some p⟩ b = State.next ⟨[replacement], none⟩ b := by
      rcases h.cases_next b with ⟨c, hencoded⟩ | ⟨q, hq⟩ | ⟨hnext, -⟩
      · exact absurd ⟨c, hencoded ▸ List.prefix_rfl⟩ (hbroken b rfl)
      · exact absurd hq.spells.begins (hbroken b rfl)
      · exact hnext
    rw [List.foldl_cons, hbegin, ← List.foldl_cons, finish_foldl_next]
    rfl

end Pending.After

/-- Reading some of the bytes of a character leaves a sequence in progress. -/
theorem Begins.exists_after {part : List UInt8} (h : Begins part) (hne : part ≠ [])
    (hpart : ∀ c, String.utf8EncodeChar c ≠ part) : ∃ p : Pending, p.After part := by
  obtain ⟨c, missing, hencoded⟩ := h
  have hread := State.foldl_next_utf8EncodeChar c
  rw [← hencoded, List.foldl_append] at hread
  have hpos : 0 < (part.foldl State.next ⟨[], none⟩).finish.length :=
    List.length_pos_of_ne_nil (decode_ne_nil hne)
  generalize hs : part.foldl State.next ⟨[], none⟩ = s at hread hpos
  obtain ⟨decoded, pending⟩ := s
  cases pending with
  | none =>
    cases missing with
    | nil =>
      rw [List.append_nil] at hencoded
      exact absurd hencoded.symm (hpart c)
    | cons b more =>
      have hlength := State.length_finish_le_foldl_next (State.next ⟨decoded, none⟩ b) more
      rw [← List.foldl_cons, hread, State.next, State.length_finish_begin] at hlength
      simp only [State.finish, List.length_reverse, List.length_singleton] at hpos hlength
      omega
  | some p =>
    have hlength := State.length_finish_le_foldl_next ⟨decoded, some p⟩ missing
    rw [hread] at hlength
    simp only [State.finish, List.length_reverse, List.length_cons, List.length_nil] at hlength
    obtain rfl := List.length_eq_zero_iff.1 (by omega : decoded.length = 0)
    exact ⟨p, hs⟩

theorem utf8EncodeChar_of_start {b : UInt8} {c : Char} (h : start b = .character c) :
    String.utf8EncodeChar c = [b] := by
  rcases Nat.lt_or_ge b.toNat 0x80 with hlt | hge
  · rw [start_of_lt hlt] at h
    rw [← Start.character.inj h, utf8EncodeChar_ofUInt8 hlt]
  · rcases start_of_ge hge with hstart | ⟨p, hstart, -⟩
    · rw [hstart] at h
      cases h
    · rw [hstart] at h
      cases h

theorem start_eq_nothing_iff {b : UInt8} : start b = .nothing ↔ ¬ Begins [b] := by
  constructor
  · rintro h ⟨c, hprefix⟩
    rcases start_utf8EncodeChar c with ⟨a, hstart, hencoded⟩ | ⟨a, p, hstart, -, hencoded⟩
    · rw [hencoded] at hprefix
      obtain ⟨rfl, -⟩ := List.cons_prefix_cons.1 hprefix
      cases h.symm.trans hstart
    · rw [hencoded] at hprefix
      obtain ⟨rfl, -⟩ := List.cons_prefix_cons.1 hprefix
      cases h.symm.trans hstart
  · intro h
    cases hstart : start b with
    | nothing => rfl
    | character c => exact absurd ⟨c, utf8EncodeChar_of_start hstart ▸ List.prefix_rfl⟩ h
    | sequence p => exact absurd (spells_of_start hstart).begins h

theorem decode_stray {b : UInt8} (h : ¬ Begins [b]) (bytes : List UInt8) :
    decode (b :: bytes) = replacement :: decode bytes := by
  rw [decode, List.foldl_cons, State.next, State.begin, start_eq_nothing_iff.2 h]
  exact finish_foldl_next [replacement] bytes

/-! The text of bytes. -/

theorem Decodes.eq_decode {bytes : List UInt8} {text : List Char} (h : Decodes bytes text) :
    text = decode bytes := by
  induction h with
  | nil => rfl
  | character c _ ih => rw [decode_character, ih]
  | broken hne hbegins hpart hbroken _ ih =>
    obtain ⟨p, hafter⟩ := hbegins.exists_after hne hpart
    rw [hafter.decode_append hbroken, ih]
  | stray hstray _ ih => rw [decode_stray hstray, ih]

/-- A sequence in progress is replaced before bytes that break it off. -/
theorem Pending.After.decodes {p : Pending} {part bytes : List UInt8} (h : p.After part)
    (hbroken : ∀ b ∈ bytes.head?, ¬ Begins (part ++ [b])) (hbytes : Decodes bytes (decode bytes)) :
    Decodes (part ++ bytes) (decode (part ++ bytes)) := by
  rw [h.decode_append hbroken]
  exact .broken h.ne_nil h.spells.begins h.utf8EncodeChar_ne hbroken hbytes

/-- The bytes are decoded in this way, also behind a sequence in progress. -/
theorem decodes_decode (bytes : List UInt8) :
    Decodes bytes (decode bytes) ∧ ∀ (part : List UInt8) (p : Pending), p.After part →
      Decodes (part ++ bytes) (decode (part ++ bytes)) := by
  -- A sequence may be in progress before the bytes that are left, hence the second half.
  induction bytes with
  | nil => exact ⟨.nil, fun part p h => h.decodes (by simp) .nil⟩
  | cons b bytes ih =>
    obtain ⟨hbytes, hafter⟩ := ih
    have hcons : Decodes (b :: bytes) (decode (b :: bytes)) := by
      cases hstart : start b with
      | nothing =>
        have hstray := start_eq_nothing_iff.1 hstart
        rw [decode_stray hstray]
        exact .stray hstray hbytes
      | character c =>
        rw [← List.singleton_append, ← utf8EncodeChar_of_start hstart, decode_character]
        exact .character c hbytes
      | sequence p =>
        have hp : p.After [b] := by
          rw [Pending.After, List.foldl_cons, List.foldl_nil, State.next, State.begin, hstart]
        exact hafter [b] p hp
    refine ⟨hcons, ?_⟩
    intro part p h
    rcases h.cases_next b with ⟨c, hencoded⟩ | ⟨q, hq⟩ | ⟨-, hbroken⟩
    · rw [List.append_cons, ← hencoded, decode_character]
      exact .character c hbytes
    · rw [List.append_cons]
      exact hafter _ q hq
    · refine h.decodes ?_ hcons
      intro a ha
      obtain rfl := Option.some.inj ha
      exact hbroken

/-- There is one text of the bytes in which what is malformed is replaced in this way, and it is the
one that is decoded. -/
theorem decodes_iff {bytes : List UInt8} {text : List Char} :
    Decodes bytes text ↔ text = decode bytes := by
  constructor
  · exact Decodes.eq_decode
  · rintro rfl
    exact (decodes_decode bytes).1

-- Three bytes of a character break off before a letter, and the last byte begins none.
example : decode [0xf0, 0x9f, 0x92, 0x41, 0xff] = ['\ufffd', 'A', '\ufffd'] := by decide

/-- Text is decoded from its bytes. -/
theorem decode_encode (text : List Char) : decode (encode text) = text := by
  induction text with
  | nil => rfl
  | cons c text ih => rw [encode_cons, decode_character, ih]

end Lexis.Text.Utf8
