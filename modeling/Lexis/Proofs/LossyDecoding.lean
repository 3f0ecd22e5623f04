import Lexis.Proofs.LineSplitting
import Lexis.Proofs.MaximalRun

/-! What the text of malformed bytes keeps.
A byte below 0x80 is a character of its own wherever it stands: it breaks off a sequence in
progress, and no sequence turns into such a character. So the decoding can be cut beside any of
these bytes, and in particular at the line endings. The lines of the text are the decoded lines of
the bytes. -/
namespace Lexis.Text.Utf8

/-! One byte. -/

/-- The sequence becomes no character below 0x80: enough bits are there, or will be after the next
byte, which is not the last one. -/
structure Pending.Proper (p : Pending) : Prop where
  least_ge : 0x80 ≤ p.least.toNat
  bits_ge : 2 ≤ p.bits ∨ (0 < p.later ∧ 2 ≤ p.bits * 64 + (p.least.toNat - 0x80))

namespace Pending

def two (lead : Nat) : Pending :=
  ⟨lead - 0xc0, 0, 0x80, 0xbf⟩

def three (lead : Nat) : Pending :=
  ⟨lead - 0xe0, 1, if lead = 0xe0 then 0xa0 else 0x80, if lead = 0xed then 0x9f else 0xbf⟩

def four (lead : Nat) : Pending :=
  ⟨lead - 0xf0, 2, if lead = 0xf0 then 0x90 else 0x80, if lead = 0xf4 then 0x8f else 0xbf⟩

@[simp] theorem bits_two (lead : Nat) : (two lead).bits = lead - 0xc0 := rfl

@[simp] theorem bits_three (lead : Nat) : (three lead).bits = lead - 0xe0 := rfl

@[simp] theorem bits_four (lead : Nat) : (four lead).bits = lead - 0xf0 := rfl

@[simp] theorem later_two (lead : Nat) : (two lead).later = 0 := rfl

@[simp] theorem later_three (lead : Nat) : (three lead).later = 1 := rfl

@[simp] theorem later_four (lead : Nat) : (four lead).later = 2 := rfl

private theorem toNat_ite (c : Prop) [Decidable c] (a b : UInt8) :
    (c ∧ (if c then a else b).toNat = a.toNat) ∨ (¬ c ∧ (if c then a else b).toNat = b.toNat) := by
  by_cases h : c
  · exact .inl ⟨h, by rw [if_pos h]⟩
  · exact .inr ⟨h, by rw [if_neg h]⟩

theorem ranges_two (lead : Nat) :
    (two lead).least.toNat = 0x80 ∧ (two lead).greatest.toNat = 0xbf :=
  ⟨rfl, rfl⟩

theorem ranges_three (lead : Nat) :
    ((lead = 0xe0 ∧ (three lead).least.toNat = 0xa0) ∨
        (lead ≠ 0xe0 ∧ (three lead).least.toNat = 0x80)) ∧
      ((lead = 0xed ∧ (three lead).greatest.toNat = 0x9f) ∨
        (lead ≠ 0xed ∧ (three lead).greatest.toNat = 0xbf)) :=
  ⟨toNat_ite (lead = 0xe0) 0xa0 0x80, toNat_ite (lead = 0xed) 0x9f 0xbf⟩

theorem ranges_four (lead : Nat) :
    ((lead = 0xf0 ∧ (four lead).least.toNat = 0x90) ∨
        (lead ≠ 0xf0 ∧ (four lead).least.toNat = 0x80)) ∧
      ((lead = 0xf4 ∧ (four lead).greatest.toNat = 0x8f) ∨
        (lead ≠ 0xf4 ∧ (four lead).greatest.toNat = 0xbf)) :=
  ⟨toNat_ite (lead = 0xf0) 0x90 0x80, toNat_ite (lead = 0xf4) 0x8f 0xbf⟩

end Pending

theorem start_eq (b : UInt8) :
    start b =
      if b.toNat < 0x80 then .character (Char.ofUInt8 b)
      else if b.toNat < 0xc2 then .nothing
      else if b.toNat < 0xe0 then .sequence (.two b.toNat)
      else if b.toNat < 0xf0 then .sequence (.three b.toNat)
      else if b.toNat < 0xf5 then .sequence (.four b.toNat)
      else .nothing := by
  simp only [start, UInt8.lt_iff_toNat_lt, ← UInt8.toNat_inj, UInt8.reduceToNat]
  rfl

theorem start_of_lt {b : UInt8} (h : b.toNat < 0x80) : start b = .character (Char.ofUInt8 b) := by
  rw [start_eq, if_pos h]

/-- From 0x80 up, a byte starts a proper sequence or nothing. -/
theorem start_of_ge {b : UInt8} (h : 0x80 ≤ b.toNat) :
    start b = .nothing ∨ ∃ p, start b = .sequence p ∧ p.Proper := by
  rw [start_eq, if_neg (Nat.not_lt.2 h)]
  split
  · exact .inl rfl
  split
  · have hleast := (Pending.ranges_two b.toNat).1
    exact .inr ⟨_, rfl, by omega, .inl (by rw [Pending.bits_two]; omega)⟩
  split
  · have hleast := (Pending.ranges_three b.toNat).1
    exact .inr ⟨_, rfl, by omega, .inr ⟨Nat.one_pos, by rw [Pending.bits_three]; omega⟩⟩
  split
  · have hleast := (Pending.ranges_four b.toNat).1
    exact .inr ⟨_, rfl, by omega, .inr ⟨Nat.two_pos, by rw [Pending.bits_four]; omega⟩⟩
  · exact .inl rfl

/-- A number from 0x80 up names no character that ends a line. One that is no code point stands
for the null character. -/
theorem isLineBreak_ofNat {n : Nat} (h : 0x80 ≤ n) : isLineBreak (Char.ofNat n) = false := by
  by_cases hvalid : n.isValidChar
  · have hne {c : Char} (hc : c.toNat < 0x80) : Char.ofNatAux n hvalid ≠ c := by
      rintro rfl
      exact Nat.not_lt.2 h hc
    rw [Char.ofNat, dif_pos hvalid]
    exact isLineBreak_eq_false_iff.2 ⟨hne (by decide), hne (by decide)⟩
  · rw [Char.ofNat, dif_neg hvalid]
    decide

theorem ofUInt8_injective {b c : UInt8} (h : Char.ofUInt8 b = Char.ofUInt8 c) : b = c := by
  have hnat : (Char.ofUInt8 b).val.toNat = (Char.ofUInt8 c).val.toNat := by rw [h]
  exact UInt8.toNat_inj.1 hnat

theorem isLineBreak_ofUInt8 {b : UInt8} (h : isLineBreak b = false) :
    isLineBreak (Char.ofUInt8 b) = false := by
  obtain ⟨hlf, hcr⟩ := isLineBreak_eq_false_iff.1 h
  exact isLineBreak_eq_false_iff.2 ⟨fun hc => hlf (ofUInt8_injective hc),
    fun hc => hcr (ofUInt8_injective hc)⟩

namespace State

def Proper (s : State) : Prop :=
  ∀ p ∈ s.pending, p.Proper

def prepend (front : List Char) (s : State) : State :=
  ⟨s.decoded ++ front, s.pending⟩

theorem proper_empty : Proper ⟨[], none⟩ := nofun

theorem proper_begin (decoded : List Char) (b : UInt8) : (begin decoded b).Proper := by
  rcases Nat.lt_or_ge b.toNat 0x80 with hlt | hge
  · rw [begin, start_of_lt hlt]
    exact nofun
  · rcases start_of_ge hge with hnothing | ⟨p, hp, hproper⟩
    · rw [begin, hnothing]
      exact nofun
    · rw [begin, hp]
      intro q hq
      obtain rfl := Option.some.inj hq
      exact hproper

/-- Only what is in progress decides what a byte does. -/
theorem next_cases (s : State) (b : UInt8) :
    (∃ p, s.pending = some p ∧ (p.least ≤ b ∧ b ≤ p.greatest) ∧
      ((p.later = 0 ∧
          s.next b = ⟨Char.ofNat (p.bits * 64 + (b.toNat - 0x80)) :: s.decoded, none⟩) ∨
        ∃ later, p.later = later + 1 ∧
          s.next b = ⟨s.decoded, some ⟨p.bits * 64 + (b.toNat - 0x80), later, 0x80, 0xbf⟩⟩)) ∨
      s.next b = begin s.finish.reverse b := by
  obtain ⟨decoded, pending⟩ := s
  cases pending with
  | none =>
    right
    rw [finish, List.reverse_reverse]
    exact rfl
  | some p =>
    by_cases hrange : p.least ≤ b ∧ b ≤ p.greatest
    · left
      refine ⟨p, rfl, hrange, ?_⟩
      rw [next]
      simp only [if_pos hrange]
      split
      · next hlater => exact .inl ⟨hlater, rfl⟩
      · next later hlater => exact .inr ⟨later, hlater, rfl⟩
    · right
      rw [next, finish, List.reverse_reverse]
      exact if_neg hrange

/-- A byte below 0x80 breaks off what is in progress and is a character. -/
theorem next_of_lt {s : State} (h : s.Proper) {b : UInt8} (hb : b.toNat < 0x80) :
    s.next b = ⟨Char.ofUInt8 b :: s.finish.reverse, none⟩ := by
  rcases s.next_cases b with ⟨p, hp, ⟨hle, -⟩, -⟩ | hnext
  · have hleast := (h p hp).least_ge
    have hle := UInt8.le_iff_toNat_le.1 hle
    omega
  · rw [hnext, begin, start_of_lt hb]

theorem proper_next {s : State} (h : s.Proper) (b : UInt8) : (s.next b).Proper := by
  rcases s.next_cases b with ⟨p, hp, ⟨hle, -⟩, ⟨-, hnext⟩ | ⟨later, hlater, hnext⟩⟩ | hnext
  · rw [hnext]
    exact nofun
  · rw [hnext]
    intro q hq
    obtain rfl := Option.some.inj hq
    have hproper := h p hp
    have hbits := hproper.bits_ge
    have hle := UInt8.le_iff_toNat_le.1 hle
    exact ⟨Nat.le_refl _, .inl (by simp only; omega)⟩
  · rw [hnext]
    exact proper_begin _ b

theorem finish_prepend (front : List Char) (s : State) :
    (s.prepend front).finish = front.reverse ++ s.finish := by
  obtain ⟨decoded, pending⟩ := s
  cases pending <;> simp only [prepend, finish, List.reverse_cons, List.reverse_append,
    List.append_assoc]

theorem begin_prepend (decoded front : List Char) (b : UInt8) :
    begin (decoded ++ front) b = (begin decoded b).prepend front := by
  rw [begin, begin]
  cases start b <;> rfl

theorem next_prepend (front : List Char) (s : State) (b : UInt8) :
    (s.prepend front).next b = (s.next b).prepend front := by
  obtain ⟨decoded, pending⟩ := s
  cases pending with
  | none => exact begin_prepend decoded front b
  | some p =>
    rw [prepend, next, next]
    simp only
    split
    · cases p.later <;> rfl
    · exact begin_prepend (replacement :: decoded) front b

/-- What has been read before does not change how bytes are read. -/
theorem foldl_next_prepend (front : List Char) (s : State) (bytes : List UInt8) :
    bytes.foldl next (s.prepend front) = (bytes.foldl next s).prepend front := by
  induction bytes generalizing s with
  | nil => rfl
  | cons b bytes ih => rw [List.foldl_cons, next_prepend, ih, List.foldl_cons]

theorem proper_foldl_next {s : State} (h : s.Proper) (bytes : List UInt8) :
    (bytes.foldl next s).Proper := by
  induction bytes generalizing s with
  | nil => exact h
  | cons b bytes ih => exact ih (proper_next h b)

theorem mem_finish {s : State} {c : Char} (h : c ∈ s.finish) : c ∈ s.decoded ∨ c = replacement := by
  rw [finish] at h
  split at h
  · exact .inl (List.mem_reverse.1 h)
  · exact (List.mem_cons.1 (List.mem_reverse.1 h)).symm

theorem unbroken_finish {s : State} (h : Unbroken s.decoded) : Unbroken s.finish := by
  intro c hc
  rcases mem_finish hc with hc | rfl
  · exact h c hc
  · decide

/-- A byte that ends no line adds no character that does. -/
theorem unbroken_next {s : State} (hs : s.Proper) (h : Unbroken s.decoded) {b : UInt8}
    (hb : isLineBreak b = false) : Unbroken (s.next b).decoded := by
  have hfinish : Unbroken s.finish.reverse := fun c hc =>
    unbroken_finish h c (List.mem_reverse.1 hc)
  rcases s.next_cases b with ⟨p, hp, ⟨hle, -⟩, ⟨hlater, hnext⟩ | ⟨later, -, hnext⟩⟩ | hnext
  · have hproper := hs p hp
    have hbits : 2 ≤ p.bits := hproper.bits_ge.resolve_right fun h => by omega
    rw [hnext]
    exact h.cons (isLineBreak_ofNat (by omega))
  · rw [hnext]
    exact h
  · rw [hnext, begin]
    rcases Nat.lt_or_ge b.toNat 0x80 with hlt | hge
    · rw [start_of_lt hlt]
      exact hfinish.cons (isLineBreak_ofUInt8 hb)
    · rcases start_of_ge hge with hnothing | ⟨p, hp, -⟩
      · rw [hnothing]
        exact hfinish.cons (by decide)
      · rw [hp]
        exact hfinish

theorem unbroken_foldl_next {s : State} (hs : s.Proper) (h : Unbroken s.decoded)
    {bytes : List UInt8} (hbytes : Unbroken bytes) : Unbroken (bytes.foldl next s).decoded := by
  induction bytes generalizing s with
  | nil => exact h
  | cons b bytes ih =>
    obtain ⟨hb, hbytes⟩ := List.forall_mem_cons.1 hbytes
    exact ih (proper_next hs b) (unbroken_next hs h hb) hbytes

theorem length_finish_begin (decoded : List Char) (b : UInt8) :
    (begin decoded b).finish.length = decoded.length + 1 := by
  rw [begin]
  cases start b <;> simp only [finish, List.length_reverse, List.length_cons]

/-- A byte adds at most one character, it takes none away, and behind it there is at least one. -/
theorem length_finish_next (s : State) (b : UInt8) :
    0 < (s.next b).finish.length ∧ s.finish.length ≤ (s.next b).finish.length ∧
      (s.next b).finish.length ≤ s.finish.length + 1 := by
  rcases s.next_cases b with ⟨p, hp, -, ⟨-, hnext⟩ | ⟨later, -, hnext⟩⟩ | hnext
  · rw [hnext, finish, finish, hp]
    simp
  · rw [hnext, finish, finish, hp]
    simp
  · rw [hnext, length_finish_begin, List.length_reverse]
    omega

theorem length_finish_foldl_next (s : State) (bytes : List UInt8) :
    (bytes.foldl next s).finish.length ≤ s.finish.length + bytes.length := by
  induction bytes generalizing s with
  | nil => exact Nat.le_refl _
  | cons b bytes ih =>
    have hnext := (s.length_finish_next b).2.2
    have hrest := ih (s.next b)
    rw [List.foldl_cons, List.length_cons]
    omega

end State

/-! Many bytes. -/

@[simp] theorem decode_nil : decode [] = [] := rfl

/-- Outside any sequence, what has been read does not change how the bytes that follow are read. -/
theorem finish_foldl_next (decoded : List Char) (bytes : List UInt8) :
    (bytes.foldl State.next ⟨decoded, none⟩).finish = decoded.reverse ++ decode bytes := by
  have hprepend : (⟨decoded, none⟩ : State) = State.prepend decoded ⟨[], none⟩ := rfl
  rw [hprepend, State.foldl_next_prepend, State.finish_prepend]
  rfl

/-- A byte below 0x80 is a character between what stands before it and what follows it. -/
theorem decode_append_cons {b : UInt8} (hb : b.toNat < 0x80) (front back : List UInt8) :
    decode (front ++ b :: back) = decode front ++ Char.ofUInt8 b :: decode back := by
  have hproper := State.proper_foldl_next State.proper_empty front
  rw [decode, List.foldl_append, List.foldl_cons, State.next_of_lt hproper hb, finish_foldl_next,
    List.reverse_cons, List.reverse_reverse, List.append_assoc]
  rfl

theorem decode_cons {b : UInt8} (hb : b.toNat < 0x80) (back : List UInt8) :
    decode (b :: back) = Char.ofUInt8 b :: decode back :=
  decode_append_cons hb [] back

/-- A place where the decoding can be cut, because the byte before it or the byte after it is below
0x80, if there is one. -/
def Seam (front back : List UInt8) : Prop :=
  (∀ b ∈ front.getLast?, b.toNat < 0x80) ∨ ∀ b ∈ back.head?, b.toNat < 0x80

theorem decode_append {front back : List UInt8} (h : Seam front back) :
    decode (front ++ back) = decode front ++ decode back := by
  rcases h with hlast | hhead
  · rcases List.eq_nil_or_concat' front with rfl | ⟨init, b, rfl⟩
    · rfl
    · have hb := hlast b List.getLast?_concat
      rw [List.append_assoc, List.singleton_append, decode_append_cons hb, decode_append_cons hb]
      simp
  · cases back with
    | nil => simp
    | cons b back =>
      have hb := hhead b rfl
      rw [decode_append_cons hb, decode_cons hb]

theorem decode_eq_map {bytes : List UInt8} (h : ∀ b ∈ bytes, b.toNat < 0x80) :
    decode bytes = bytes.map Char.ofUInt8 := by
  induction bytes with
  | nil => rfl
  | cons b bytes ih =>
    obtain ⟨hb, hbytes⟩ := List.forall_mem_cons.1 h
    rw [decode_cons hb, ih hbytes, List.map_cons]

theorem length_decode_le (bytes : List UInt8) : (decode bytes).length ≤ bytes.length := by
  have hlength := State.length_finish_foldl_next ⟨[], none⟩ bytes
  have hempty : (State.finish ⟨[], none⟩).length = 0 := rfl
  rwa [hempty, Nat.zero_add] at hlength

theorem decode_ne_nil {bytes : List UInt8} (h : bytes ≠ []) : decode bytes ≠ [] := by
  rcases List.eq_nil_or_concat' bytes with rfl | ⟨init, b, rfl⟩
  · exact absurd rfl h
  · rw [decode, List.foldl_append]
    exact List.ne_nil_of_length_pos (State.length_finish_next _ b).1

end Utf8

/-! Lines of bytes. -/

theorem Unbroken.decode {bytes : List UInt8} (h : Unbroken bytes) :
    Unbroken (Utf8.decode bytes) := by
  apply Utf8.State.unbroken_finish
  exact Utf8.State.unbroken_foldl_next Utf8.State.proper_empty unbroken_nil h

theorem toNat_lt_of_isLineBreak {b : UInt8} (h : isLineBreak b = true) : b.toNat < 0x80 := by
  rcases Bool.or_eq_true _ _ ▸ h with h | h
  · rw [of_decide_eq_true h]
    decide
  · rw [of_decide_eq_true h]
    decide

/-- A line feed in front is one before and after the decoding. -/
theorem head?_decode_eq_lineFeed {bytes : List UInt8}
    (h : (Utf8.decode bytes).head? = some LineEndings.lineFeed) :
    bytes.head? = some LineEndings.lineFeed := by
  obtain ⟨run, after, rfl, hall, hstops⟩ := MaximalRun.exists_append (fun b => !isLineBreak b) bytes
  have hrun : Unbroken run := fun b hb => Bool.not_eq_true' _ ▸ hall b hb
  have hascii : ∀ b ∈ after.head?, b.toNat < 0x80 := fun b hb =>
    toNat_lt_of_isLineBreak (Bool.not_eq_false' _ ▸ hstops b hb)
  rw [Utf8.decode_append (.inr hascii)] at h
  cases run with
  | cons b run =>
    -- There is a character before the first line ending.
    rw [List.head?_append_of_ne_nil _ (Utf8.decode_ne_nil (List.cons_ne_nil b run))] at h
    have hbreak := hrun.decode _ (List.mem_of_mem_head? h)
    cases hbreak
  | nil =>
    cases after with
    | nil => cases h
    | cons b after =>
      rw [Utf8.decode_nil, List.nil_append, Utf8.decode_cons (hascii b rfl)] at h
      exact congrArg some (Utf8.ofUInt8_injective (Option.some.inj h))

def Line.decode (l : Line UInt8) : Line Char :=
  ⟨Utf8.decode l.text, Utf8.decode l.ending⟩

theorem IsEnding.decode {ending after : List UInt8} (h : IsEnding ending after) :
    IsEnding (Utf8.decode ending) (Utf8.decode after) := by
  cases h with
  | lineFeed => exact .lineFeed
  | carriageReturn hafter => exact .carriageReturn fun h => hafter (head?_decode_eq_lineFeed h)
  | both => exact .both

theorem IsEnding.isLineBreak {ending after : List UInt8} (h : IsEnding ending after) :
    ∀ b ∈ ending, isLineBreak b = true := by
  have hpair : ∀ b ∈ [Byte.carriageReturn, Byte.lineFeed], Text.isLineBreak b = true :=
    List.all_eq_true.1 (by decide)
  cases h with
  | lineFeed => exact fun b hb => hpair b (List.mem_cons_of_mem _ hb)
  | carriageReturn => exact fun b hb => hpair b (List.mem_cons.2 (.inl (List.mem_singleton.1 hb)))
  | both => exact hpair

/-- The decoding can be cut before an ending. -/
theorem IsEnding.seam {ending after : List UInt8} (h : IsEnding ending after)
    (front : List UInt8) : Utf8.Seam front (ending ++ after) := by
  rw [Utf8.Seam, List.head?_append_of_ne_nil ending h.ne_nil]
  right
  intro b hb
  exact toNat_lt_of_isLineBreak (h.isLineBreak b (List.mem_of_mem_head? hb))

theorem IsEnding.decode_append {ending after : List UInt8} (h : IsEnding ending after)
    (front : List UInt8) :
    Utf8.decode (front ++ (ending ++ after)) =
      Utf8.decode front ++ (Utf8.decode ending ++ Utf8.decode after) := by
  have hbehind : Utf8.Seam ending after := by
    left
    intro b hb
    exact toNat_lt_of_isLineBreak (h.isLineBreak b (List.mem_of_getLast? hb))
  rw [Utf8.decode_append (h.seam front), Utf8.decode_append hbehind]

theorem Split.joined_map_decode {ls : List (Line UInt8)} (h : Split ls) :
    joined (ls.map Line.decode) = Utf8.decode (joined ls) := by
  induction h with
  | nil => rfl
  | last =>
    simp only [List.map_cons, List.map_nil, joined_cons, joined_nil, List.append_nil, Line.decode,
      Utf8.decode_nil]
  | cons _ hending _ ih =>
    rw [List.map_cons, joined_cons, ih, joined_cons, hending.decode_append]
    rfl

/-- The lines of a decoded text are the decoded lines. -/
theorem Split.decode {ls : List (Line UInt8)} (h : Split ls) : Split (ls.map Line.decode) := by
  induction h with
  | nil => exact .nil
  | last hne htext => exact .last (Utf8.decode_ne_nil hne) htext.decode
  | cons htext hending hrest ih =>
    refine .cons htext.decode ?_ ih
    rw [hrest.joined_map_decode]
    exact hending.decode

end Lexis.Text

namespace Lexis

/-- A line that is looked up in the text of bytes is the decoded line of the bytes. -/
theorem lineOf?_ofUtf8Lossy {ls : List (Text.Line UInt8)} (h : Text.Split ls) (number : UInt32) :
    lineOf? (Text.ofUtf8Lossy (Text.joined ls)) number =
      if number = 0 then none
      else ls[number.toNat - 1]?.map fun l => String.ofList (Text.Utf8.decode l.text) := by
  rw [lineOf?, Text.ofUtf8Lossy, String.toList_ofList, ← h.joined_map_decode,
    h.decode.line?_joined]
  split
  · rfl
  · rw [List.getElem?_map, Option.map_map, Option.map_map]
    rfl

/-- The line behind the lines `front` is found by its number. -/
theorem lineOf?_of_toNat_eq {front back : List (Text.Line UInt8)} {l : Text.Line UInt8}
    (h : Text.Split (front ++ l :: back)) {number : UInt32}
    (hnumber : number.toNat = front.length + 1) :
    lineOf? (Text.ofUtf8Lossy (Text.joined (front ++ l :: back))) number =
      some (Text.ofUtf8Lossy l.text) := by
  have hpos : number ≠ 0 := by
    rintro rfl
    cases hnumber
  rw [lineOf?_ofUtf8Lossy h, if_neg hpos, hnumber, Nat.add_sub_cancel,
    List.getElem?_append_right (Nat.le_refl _), Nat.sub_self]
  rfl

end Lexis
