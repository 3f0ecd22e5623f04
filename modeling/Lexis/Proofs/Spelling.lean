import Lexis.Lexeme
import Lexis.Proofs.Ascii
import Lexis.Proofs.DecimalValue
import Lexis.Proofs.GapFilling

/-! The spellings of lexemes, and what may stand behind them.
A lexeme is read back from its spelling if the byte behind it would not be read as a part of it.
This is all that a reading has to know about what follows. -/
namespace Lexis

/-- Whether a byte directly behind a lexeme of this kind is not read as something of its own: it
would belong to the same lexeme, or begin a comment together with a division sign. -/
def Kind.continuedBy : Kind → UInt8 → Bool
  | .identifier, b => Byte.isWordByte b
  | .reserved _, b => Byte.isWordByte b
  | .number, b => Byte.isDigit b
  | .symbol .assign, b => b == '='.toUInt8 || b == '>'.toUInt8
  | .symbol .less, b => b == '='.toUInt8
  | .symbol .greater, b => b == '='.toUInt8
  | .symbol .negation, b => b == '='.toUInt8
  | .symbol .openBracket, b => b == ']'.toUInt8
  | .symbol .divide, b => b == Byte.slash || b == Byte.dash
  | _, _ => false

def Kind.quote (spelling : String) : String :=
  "'" ++ spelling ++ "'"

theorem Kind.name_reserved (r : Reserved) : (Kind.reserved r).name = Kind.quote r.spelling := by
  cases r <;> rfl

/-- A symbol is named by its spelling, unless it is the empty array. -/
theorem Kind.name_symbol {s : Symbol} (hs : s ≠ .emptyArray) :
    (Kind.symbol s).name = Kind.quote s.spelling := by
  cases s
  case emptyArray => exact absurd rfl hs
  all_goals rfl

/-- White space continues nothing. -/
theorem Kind.continuedBy_of_mem_whiteSpace (kind : Kind) {b : UInt8} (hb : b ∈ Gap.whiteSpace) :
    kind.continuedBy b = false := by
  have hclass {p : UInt8 → Bool} (hp : Gap.whiteSpace.any p = false) : p b = false :=
    Bool.not_eq_true _ ▸ List.any_eq_false.1 hp b hb
  have hsymbol (s : Symbol) : Gap.whiteSpace.any (Kind.symbol s).continuedBy = false := by
    cases s <;> decide
  cases kind with
  | identifier => exact hclass (p := Byte.isWordByte) (by decide)
  | reserved => exact hclass (p := Byte.isWordByte) (by decide)
  | number => exact hclass (p := Byte.isDigit) (by decide)
  | symbol s => exact hclass (hsymbol s)
  | endOfFile | boolean | character | string | decimal => rfl

namespace Lexeme

def IsWord (bytes : List UInt8) : Prop :=
  (∃ b ∈ bytes.head?, Byte.isWordStart b = true) ∧ ∀ b ∈ bytes, Byte.isWordByte b = true

instance (bytes : List UInt8) : Decidable (IsWord bytes) :=
  decidable_of_iff (bytes.head?.any Byte.isWordStart = true ∧ bytes.all Byte.isWordByte = true) (by
    rw [Option.any_eq_true, List.all_eq_true]
    rfl)

/-- The kind of a word: the reserved word of this spelling, or an identifier without one. -/
def IsWordKind (spelling : String) (kind : Kind) : Prop :=
  (∃ r : Reserved, r.spelling = spelling ∧ kind = .reserved r) ∨
    ((∀ r : Reserved, r.spelling ≠ spelling) ∧ kind = .identifier)

/-- The bytes with which a lexeme can be written. A number may have leading zeros, and every other
lexeme has one spelling. That of a symbol is its name without the quotes, but the name of the empty
array is a word. -/
inductive Spelled : Lexeme → List UInt8 → Prop
  | word {kind spelling} (hword : IsWord (Text.utf8 spelling))
      (hlength : (Text.utf8 spelling).length ≤ 32) (hkind : IsWordKind spelling kind) :
      Spelled ⟨kind, .word spelling⟩ (Text.utf8 spelling)
  | number {value digits} (hne : digits ≠ []) (hdigits : ∀ d ∈ digits, Byte.isDigit d = true)
      (hvalue : value.toInt = (Numeral.decimal digits : Int)) :
      Spelled ⟨.number, .integer value⟩ digits
  | emptyArray : Spelled ⟨.symbol .emptyArray, .none⟩ (Text.utf8 "[]")
  | symbol {s text} (hs : s ≠ .emptyArray) (hname : (Kind.symbol s).name = Kind.quote text) :
      Spelled ⟨.symbol s, .none⟩ (Text.utf8 text)

def Stops (l : Lexeme) (after : List UInt8) : Prop :=
  ∀ b ∈ after.head?, l.kind.continuedBy b = false

instance (l : Lexeme) (after : List UInt8) : Decidable (l.Stops after) :=
  decidable_of_iff (after.head?.all (fun b => !l.kind.continuedBy b) = true) (by
    simp only [Option.all_eq_true, Bool.not_eq_true']
    rfl)

theorem IsWordKind.continuedBy {spelling : String} {kind : Kind}
    (h : IsWordKind spelling kind) : kind.continuedBy = Byte.isWordByte := by
  rcases h with ⟨r, -, rfl⟩ | ⟨-, rfl⟩
  · rfl
  · rfl

theorem ofWord_eq {spelling : String} {kind : Kind} (h : IsWordKind spelling kind) :
    ofWord spelling = ⟨kind, .word spelling⟩ := by
  rcases h with ⟨r, hr, rfl⟩ | ⟨hplain, rfl⟩
  · rw [ofWord, Reserved.ofSpelling?_eq_some_iff.2 hr]
  · rw [ofWord, Reserved.ofSpelling?_eq_none_iff.2 hplain]

theorem exists_isWordKind (spelling : String) : ∃ kind, IsWordKind spelling kind := by
  by_cases h : ∃ r : Reserved, r.spelling = spelling
  · obtain ⟨r, hr⟩ := h
    exact ⟨.reserved r, .inl ⟨r, hr, rfl⟩⟩
  · exact ⟨.identifier, .inr ⟨fun r hr => h ⟨r, hr⟩, rfl⟩⟩

theorem isWordKind_identifier {spelling : String} (h : Reserved.ofSpelling? spelling = none) :
    IsWordKind spelling .identifier :=
  .inr ⟨Reserved.ofSpelling?_eq_none_iff.1 h, rfl⟩

theorem Spelled.identifier {spelling : String} (hword : IsWord (Text.utf8 spelling))
    (hlength : (Text.utf8 spelling).length ≤ 32) (hplain : Reserved.ofSpelling? spelling = none) :
    Spelled ⟨.identifier, .word spelling⟩ (Text.utf8 spelling) :=
  .word hword hlength (isWordKind_identifier hplain)

end Lexeme

namespace Symbol

theorem utf8_spelling (s : Symbol) : Text.utf8 s.spelling = s.bytes := by
  rw [Text.utf8, spelling, String.toList_ofList]
  cases s <;> decide

/-- The symbol that is read is the longest one at the front. -/
theorem length_le_of_first?_eq_some {ahead : List UInt8} {s t : Symbol}
    (h : first? ahead = some s) (ht : t.bytes <+: ahead) : t.bytes.length ≤ s.bytes.length := by
  have hsorted : all.Pairwise fun s t => t.bytes.length ≤ s.bytes.length := by decide
  obtain ⟨-, before, behind, hall, hbefore⟩ := List.find?_eq_some_iff_append.1 h
  rw [hall] at hsorted
  have hmem := mem_all t
  rw [hall, List.mem_append, List.mem_cons] at hmem
  rcases hmem with hmem | rfl | hmem
  · have hnot := hbefore t hmem
    rw [List.isPrefixOf_iff_prefix.2 ht] at hnot
    cases hnot
  · exact Nat.le_refl _
  · exact List.rel_of_pairwise_cons (List.pairwise_append.1 hsorted).2.1 hmem

/-- A symbol at the front is read if no longer one stands there. -/
theorem first?_eq_some {ahead : List UInt8} {s : Symbol} (hs : s.bytes <+: ahead)
    (hlongest : ∀ t : Symbol, t.bytes <+: ahead → t.bytes.length ≤ s.bytes.length) :
    first? ahead = some s := by
  cases h : first? ahead with
  | none => exact absurd hs (not_prefix_of_first?_eq_none h s)
  | some t =>
    have ht := prefix_of_first?_eq_some h
    have hlength := Nat.le_antisymm (hlongest t ht) (length_le_of_first?_eq_some h hs)
    have hbytes := List.prefix_of_prefix_length_le ht hs (Nat.le_of_eq hlength)
    rw [bytes_injective (hbytes.eq_of_length hlength)]

private theorem continuedBy_of_bytes_eq {s t : Symbol} {b : UInt8} (h : t.bytes = s.bytes ++ [b]) :
    (Kind.symbol s).continuedBy b = true := by
  have hall : ∀ s ∈ all, ∀ t ∈ all, t.bytes.all (fun b =>
      decide (t.bytes = s.bytes ++ [b] → (Kind.symbol s).continuedBy b = true)) := by decide
  have hb : b ∈ t.bytes := by
    rw [h]
    exact List.mem_append_right _ (List.mem_singleton_self b)
  exact of_decide_eq_true (List.all_eq_true.1 (hall s (mem_all s) t (mem_all t)) b hb) h

private theorem exists_bytes_eq_of_continuedBy {s : Symbol} {b : UInt8} (hs : s ≠ .divide)
    (h : (Kind.symbol s).continuedBy b = true) : ∃ t : Symbol, t.bytes = s.bytes ++ [b] := by
  cases s
  case assign =>
    rcases Bool.or_eq_true _ _ ▸ h with h | h
    · exact ⟨.equals, by rw [beq_iff_eq.1 h]; rfl⟩
    · exact ⟨.arrow, by rw [beq_iff_eq.1 h]; rfl⟩
  case less => exact ⟨.lessEquals, by rw [beq_iff_eq.1 h]; rfl⟩
  case greater => exact ⟨.greaterEquals, by rw [beq_iff_eq.1 h]; rfl⟩
  case negation => exact ⟨.notEquals, by rw [beq_iff_eq.1 h]; rfl⟩
  case openBracket => exact ⟨.emptyArray, by rw [beq_iff_eq.1 h]; rfl⟩
  case divide => exact absurd rfl hs
  all_goals cases h

/-- A symbol in front of what does not continue it is the longest symbol there. -/
theorem first?_append {s : Symbol} {after : List UInt8}
    (h : ∀ b ∈ after.head?, (Kind.symbol s).continuedBy b = false) :
    first? (s.bytes ++ after) = some s := by
  refine first?_eq_some (List.prefix_append ..) fun t ht => Nat.le_of_not_lt fun hlong => ?_
  obtain ⟨more, hmore⟩ :=
    List.prefix_of_prefix_length_le (List.prefix_append ..) ht (Nat.le_of_lt hlong)
  rw [← hmore, List.prefix_append_right_inj] at ht
  have hone : more.length = 1 := by
    have hle := t.length_bytes_le_two
    have hpos := s.length_bytes_pos
    rw [← hmore, List.length_append] at hle hlong
    omega
  obtain ⟨b, rfl⟩ := List.length_eq_one_iff.1 hone
  obtain ⟨after, rfl⟩ := ht
  have hcontinued := continuedBy_of_bytes_eq hmore.symm
  rw [h b rfl] at hcontinued
  cases hcontinued

/-- The symbol that is read is not continued by what follows it. -/
theorem continuedBy_of_first?_append {s : Symbol} {b : UInt8} {after : List UInt8}
    (hs : s ≠ .divide) (h : first? (s.bytes ++ b :: after) = some s) :
    (Kind.symbol s).continuedBy b = false := by
  refine Bool.not_eq_true _ ▸ fun hcontinued => ?_
  obtain ⟨t, ht⟩ := exists_bytes_eq_of_continuedBy hs hcontinued
  have hlength := length_le_of_first?_eq_some (t := t) h ⟨after, by simp [ht]⟩
  rw [ht, List.length_append, List.length_singleton] at hlength
  omega

/-- The first byte of a symbol is a symbol of its own. -/
theorem exists_bytes_eq_take_one (s : Symbol) : ∃ t : Symbol, t.bytes = s.bytes.take 1 := by
  have hall : ∀ s ∈ all, ∃ t ∈ all, t.bytes = s.bytes.take 1 := by decide
  obtain ⟨t, -, ht⟩ := hall s (mem_all s)
  exact ⟨t, ht⟩

theorem not_mem_whiteSpace {s : Symbol} {b : UInt8} (h : b ∈ s.bytes) :
    b ∉ Gap.whiteSpace ∧ (b = Byte.slash → s = .divide) := by
  have hall : ∀ s ∈ all, s.bytes.all fun b =>
      decide (b ∉ Gap.whiteSpace ∧ (b = Byte.slash → s = .divide)) := by decide
  exact of_decide_eq_true (List.all_eq_true.1 (hall s (mem_all s)) b h)

theorem not_isWordByte {s : Symbol} {b : UInt8} (h : b ∈ s.bytes) :
    Byte.isWordStart b = false ∧ Byte.isDigit b = false := by
  have hall : ∀ s ∈ all, s.bytes.all fun b =>
      decide (Byte.isWordStart b = false ∧ Byte.isDigit b = false) := by decide
  exact of_decide_eq_true (List.all_eq_true.1 (hall s (mem_all s)) b h)

end Symbol

namespace Lexeme

theorem spelled_ofSymbol (s : Symbol) : Spelled (ofSymbol s) s.bytes := by
  rw [← s.utf8_spelling]
  cases s
  case emptyArray => exact .emptyArray
  all_goals exact .symbol (by decide) rfl

private theorem quote_injective {a b : String} (h : Kind.quote a = Kind.quote b) : a = b := by
  rw [← String.toList_inj] at h ⊢
  simpa [Kind.quote] using h

private theorem utf8_eq_bytes {s : Symbol} {text : String} (hs : s ≠ .emptyArray)
    (hname : (Kind.symbol s).name = Kind.quote text) : Text.utf8 text = s.bytes := by
  rw [← quote_injective ((Kind.name_symbol hs).symm.trans hname), s.utf8_spelling]

namespace Spelled

/-- A word, a number or a symbol, as its first byte tells. -/
theorem kinds {l : Lexeme} {text : List UInt8} (h : Spelled l text) :
    (∃ spelling kind, l = ⟨kind, .word spelling⟩ ∧ text = Text.utf8 spelling ∧ IsWord text ∧
      text.length ≤ 32 ∧ IsWordKind spelling kind) ∨
    (∃ value, l = ⟨.number, .integer value⟩ ∧ text ≠ [] ∧ (∀ d ∈ text, Byte.isDigit d = true) ∧
      value.toInt = (Numeral.decimal text : Int)) ∨
    ∃ s, l = ofSymbol s ∧ text = s.bytes := by
  cases h with
  | word hword hlength hkind => exact .inl ⟨_, _, rfl, rfl, hword, hlength, hkind⟩
  | number hne hdigits hvalue => exact .inr (.inl ⟨_, rfl, hne, hdigits, hvalue⟩)
  | emptyArray => exact .inr (.inr ⟨.emptyArray, rfl, Symbol.utf8_spelling .emptyArray⟩)
  | symbol hs hname => exact .inr (.inr ⟨_, rfl, utf8_eq_bytes hs hname⟩)

end Spelled

theorem IsWord.exists_cons {bytes : List UInt8} (h : IsWord bytes) :
    ∃ b rest, bytes = b :: rest ∧ Byte.isWordStart b = true := by
  obtain ⟨⟨b, hb, hstart⟩, -⟩ := h
  cases bytes with
  | nil => cases hb
  | cons c rest =>
    obtain rfl : c = b := by simpa using hb
    exact ⟨c, rest, rfl, hstart⟩

theorem Spelled.ne_nil {l : Lexeme} {text : List UInt8} (h : Spelled l text) : text ≠ [] := by
  rcases h.kinds with ⟨_, _, -, -, hword, -⟩ | ⟨_, -, hne, -⟩ | ⟨s, -, rfl⟩
  · obtain ⟨b, rest, rfl, -⟩ := hword.exists_cons
    exact List.cons_ne_nil b rest
  · exact hne
  · exact List.ne_nil_of_length_pos s.length_bytes_pos

theorem Spelled.kind_ne_endOfFile {l : Lexeme} {text : List UInt8} (h : Spelled l text) :
    l.kind ≠ .endOfFile := by
  rcases h.kinds with ⟨_, _, rfl, -, -, -, hkind⟩ | ⟨_, rfl, -⟩ | ⟨s, rfl, -⟩
  · rcases hkind with ⟨r, -, rfl⟩ | ⟨-, rfl⟩ <;> exact nofun
  · exact nofun
  · exact nofun

/-- No lexeme has white space in it. -/
theorem Spelled.not_mem_whiteSpace {l : Lexeme} {text : List UInt8} (h : Spelled l text) {b : UInt8}
    (hb : b ∈ text) : b ∉ Gap.whiteSpace := by
  rcases h.kinds with ⟨_, _, -, -, hword, -⟩ | ⟨_, -, -, hdigits, -⟩ | ⟨s, -, rfl⟩
  · exact Gap.not_mem_whiteSpace_of_class (by decide) (hword.2 b hb)
  · exact Gap.not_mem_whiteSpace_of_class (by decide) (hdigits b hb)
  · exact (s.not_mem_whiteSpace hb).1

/-- No gap begins with a lexeme that what follows does not continue. -/
theorem Spelled.clear {l : Lexeme} {text after : List UInt8} (h : Spelled l text)
    (hstops : l.Stops after) : Gap.Clear (text ++ after) := by
  rcases h.kinds with ⟨_, _, -, -, hword, -⟩ | ⟨_, -, hne, hdigits, -⟩ | ⟨s, rfl, rfl⟩
  · obtain ⟨b, rest, rfl, hstart⟩ := hword.exists_cons
    exact Gap.clear_of_isWordStart hstart _
  · obtain ⟨b, rest, rfl⟩ := List.exists_cons_of_ne_nil hne
    exact Gap.clear_of_isDigit (hdigits b List.mem_cons_self) _
  · obtain ⟨b, rest, hbytes⟩ := List.exists_cons_of_length_pos s.length_bytes_pos
    obtain ⟨hblank, hdivide⟩ := s.not_mem_whiteSpace (by rw [hbytes]; exact List.mem_cons_self)
    rw [hbytes]
    refine Gap.clear_cons hblank fun hb c hc => ?_
    obtain rfl := hdivide hb
    obtain ⟨-, rfl⟩ := List.cons.inj hbytes
    simpa using Bool.or_eq_false_iff.1 (hstops c hc)

end Lexeme

/-! What is read, as the first byte tells. -/

namespace Reading

private theorem next_cons_of_isWordStart {b : UInt8} (h : Byte.isWordStart b = true)
    (rest : List UInt8) : next (b :: rest) = word (b :: rest) := by
  rw [next, if_pos h]

private theorem next_cons_of_isDigit {b : UInt8} (h : Byte.isDigit b = true) (rest : List UInt8) :
    next (b :: rest) = number (b :: rest) := by
  have hstart := Byte.isWordStart_of_isDigit h
  rw [next, if_neg (by simp [hstart]), if_pos h]

theorem next_cons_of_neither {b : UInt8} (hstart : Byte.isWordStart b = false)
    (hdigit : Byte.isDigit b = false) (rest : List UInt8) :
    next (b :: rest) = symbol b (b :: rest) := by
  rw [next, if_neg (by simp [hstart]), if_neg (by simp [hdigit])]

/-- A maximal word is read as a whole, if only to find it too long. -/
theorem next_word_append {spelling : String} {after : List UInt8}
    (hword : Lexeme.IsWord (Text.utf8 spelling))
    (hrun : MaximalRun Byte.isWordByte (Text.utf8 spelling) after) :
    next (Text.utf8 spelling ++ after) = ⟨(Text.utf8 spelling).length,
      if 32 < (Text.utf8 spelling).length then .error (.longIdentifier spelling 32)
      else .ok (.ofWord spelling)⟩ := by
  have hascii : ∀ b ∈ Text.utf8 spelling, b.toNat < 128 := fun b hb =>
    Byte.toNat_lt_of_isWordByte (hrun.all b hb)
  have hread : next (Text.utf8 spelling ++ after) = word (Text.utf8 spelling ++ after) := by
    obtain ⟨b, rest, hbytes, hstart⟩ := hword.exists_cons
    rw [hbytes]
    exact next_cons_of_isWordStart hstart _
  rw [hread]
  simp only [word, hrun.takeWhile_append, Text.latin1_utf8 hascii, Lexeme.wordLimit]
  split
  · rfl
  · rfl

/-- A maximal run of digits is read as a whole, if only to find its number too large. -/
theorem number_append {digits after : List UInt8} (h : MaximalRun Byte.isDigit digits after) :
    number (digits ++ after) = ⟨digits.length, match Numeral.value? digits with
      | some value => .ok (.ofInteger value)
      | none => .error (.numberTooLarge (Text.latin1 digits))⟩ := by
  rw [number, h.takeWhile_append]
  cases Numeral.value? digits with
  | none => rfl
  | some value => rfl

theorem next_digits_append {digits after : List UInt8} (hne : digits ≠ [])
    (hrun : MaximalRun Byte.isDigit digits after) :
    next (digits ++ after) = ⟨digits.length, match Numeral.value? digits with
      | some value => .ok (.ofInteger value)
      | none => .error (.numberTooLarge (Text.latin1 digits))⟩ := by
  obtain ⟨b, rest, rfl⟩ := List.exists_cons_of_ne_nil hne
  have hdigit := hrun.all b List.mem_cons_self
  exact (next_cons_of_isDigit hdigit _).trans (number_append hrun)

end Reading

/-- A lexeme that what follows does not continue is read back from its spelling. -/
theorem Lexeme.Spelled.next_append {l : Lexeme} {text after : List UInt8} (h : Spelled l text)
    (hstops : l.Stops after) : Reading.next (text ++ after) = ⟨text.length, .ok l⟩ := by
  rcases h.kinds with
    ⟨spelling, kind, rfl, rfl, hword, hlength, hkind⟩ | ⟨value, rfl, hne, hdigits, hvalue⟩ |
    ⟨s, rfl, rfl⟩
  · rw [Stops, hkind.continuedBy] at hstops
    rw [Reading.next_word_append hword ⟨hword.2, hstops⟩, if_neg (Nat.not_lt.2 hlength),
      ofWord_eq hkind]
  · rw [Reading.next_digits_append hne ⟨hdigits, hstops⟩, Numeral.value?_eq_some hdigits hvalue]
    rfl
  · have hread (b : UInt8) : Reading.symbol b (s.bytes ++ after) =
        ⟨s.bytes.length, .ok (ofSymbol s)⟩ := by
      rw [Reading.symbol, Symbol.first?_append hstops]
    obtain ⟨b, rest, hbytes⟩ := List.exists_cons_of_length_pos s.length_bytes_pos
    obtain ⟨hstart, hdigit⟩ := s.not_isWordByte (by rw [hbytes]; exact List.mem_cons_self)
    rw [← hread b, hbytes]
    exact Reading.next_cons_of_neither hstart hdigit _

end Lexis
