import Lexis.Proofs.LinePlaces
import Lexis.Proofs.LossyDecoding

/-! How far the counters of lines and columns reach.
In exact arithmetic the line and the column of a place are together at most two more than the bytes
of the source, however the breaks are spread. So in 32 bits no addition overflows as long as the
bytes leave room for that, and with one byte more the last addition can. -/
namespace Lexis

/-- One more, unless that needs more than 32 bits. -/
def addOne? (n : UInt32) : Option UInt32 :=
  if n.toBitVec.uaddOverflow 1 then none else some (n + 1)

theorem addOne?_of_lt {n : UInt32} (h : n.toNat + 1 < 2 ^ 32) : addOne? n = some (n + 1) := by
  have hfits : n.toBitVec.uaddOverflow 1 = false := decide_eq_false (Nat.not_le_of_lt h)
  rw [addOne?, hfits]
  rfl

theorem addOne?_of_le {n : UInt32} (h : 2 ^ 32 ≤ n.toNat + 1) : addOne? n = none := by
  have hoverflow : n.toBitVec.uaddOverflow 1 = true := decide_eq_true h
  rw [addOne?, hoverflow]
  rfl

def Position.past? (p : Position) (b : UInt8) (following : Option UInt8) : Option Position :=
  if endsLine b following then (addOne? p.line).map fun line => ⟨line, 1⟩
  else (addOne? p.column).map fun column => ⟨p.line, column⟩

structure Tally where
  line : Nat
  column : Nat
deriving DecidableEq, Repr

namespace Tally

def Fits (t : Tally) : Prop :=
  t.line < 2 ^ 32 ∧ t.column < 2 ^ 32

def Is (t : Tally) (p : Position) : Prop :=
  p.line.toNat = t.line ∧ p.column.toNat = t.column

def past (t : Tally) (b : UInt8) (following : Option UInt8) : Tally :=
  if Position.endsLine b following then ⟨t.line + 1, 1⟩ else ⟨t.line, t.column + 1⟩

section
variable {t : Tally} {p : Position} {b : UInt8} {following : Option UInt8}

theorem Is.fits (h : t.Is p) : t.Fits := by
  obtain ⟨hline, hcolumn⟩ := h
  rw [Fits, ← hline, ← hcolumn]
  exact ⟨p.line.toNat_lt, p.column.toNat_lt⟩

theorem Is.past (h : t.Is p) (hfits : (t.past b following).Fits) :
    p.past? b following = some (p.past b following) ∧
      (t.past b following).Is (p.past b following) := by
  obtain ⟨hline, hcolumn⟩ := h
  rw [Position.past?, Position.past]
  rw [Tally.past] at hfits ⊢
  split
  · next hends =>
    rw [if_pos hends] at hfits
    have hlt : p.line.toNat + 1 < 2 ^ 32 := hline ▸ hfits.1
    refine ⟨?_, ?_, rfl⟩
    · rw [addOne?_of_lt hlt]
      rfl
    · rw [Position.toNat_add_one hlt, hline]
  · next hends =>
    rw [if_neg hends] at hfits
    have hlt : p.column.toNat + 1 < 2 ^ 32 := hcolumn ▸ hfits.2
    refine ⟨?_, hline, ?_⟩
    · rw [addOne?_of_lt hlt]
      rfl
    · rw [Position.toNat_add_one hlt, hcolumn]

theorem Is.past?_eq_none (h : t.Is p) (hfits : ¬ (t.past b following).Fits) :
    p.past? b following = none := by
  obtain ⟨hline, hcolumn⟩ := h
  have hlt := p.line.toNat_lt
  have hlt' := p.column.toNat_lt
  rw [Position.past?]
  rw [Tally.past, Fits] at hfits
  split
  · next hends =>
    rw [if_pos hends] at hfits
    rw [addOne?_of_le (by dsimp only at hfits; omega)]
    rfl
  · next hends =>
    rw [if_neg hends] at hfits
    rw [addOne?_of_le (by dsimp only at hfits; omega)]
    rfl

end

/-- The exact place to which a move of a reader leads. The first move onto a byte adds one to the
column, and at the end nothing is added. -/
def move (t : Tally) : Reader → Tally
  | .unread [] => t
  | .unread (_ :: _) => ⟨t.line, t.column + 1⟩
  | .reading c =>
    match c.rest with
    | [] => t
    | b :: rest => t.past b rest.head?

def afterMoves (bytes : List UInt8) : Nat → Tally
  | 0 => ⟨1, 0⟩
  | k + 1 => (afterMoves bytes k).move ((Reader.unread bytes).advanceBy k)

end Tally

namespace Reader

def advance? : Reader → Option Reader
  | unread [] => some (reading (.ofBytes []))
  | unread (b :: rest) => (addOne? Position.start.column).map fun column =>
    reading ⟨[], b :: rest, ⟨Position.start.line, column⟩⟩
  | reading c =>
    match c.rest with
    | [] => some (reading c)
    | b :: rest => (c.position.past? b rest.head?).map fun p => reading ⟨b :: c.passed, rest, p⟩

def advanceBy? (r : Reader) : Nat → Option Reader
  | 0 => some r
  | k + 1 => (r.advanceBy? k).bind advance?

theorem advanceBy_succ_eq_advance (r : Reader) (k : Nat) :
    r.advanceBy (k + 1) = (r.advanceBy k).advance := by
  induction k generalizing r with
  | zero => rfl
  | succ k ih =>
    rw [advanceBy, ih]
    rfl

/-- A move overflows exactly where the exact place does not fit, and otherwise leads there. -/
theorem advance?_cases {r : Reader} {t : Tally} (h : t.Is r.position) :
    ((t.move r).Fits → r.advance? = some r.advance ∧ (t.move r).Is r.advance.position) ∧
      (¬ (t.move r).Fits → r.advance? = none) := by
  match r with
  | unread [] => exact ⟨fun _ => ⟨rfl, h⟩, fun hfits => absurd h.fits hfits⟩
  | unread (b :: rest) =>
    have hsum : addOne? Position.start.column = some 1 := rfl
    have hmove : (t.move (unread (b :: rest))).Is Position.first := ⟨h.1, congrArg (· + 1) h.2⟩
    refine ⟨fun _ => ⟨?_, hmove⟩, fun hfits => absurd hmove.fits hfits⟩
    rw [advance?, hsum]
    rfl
  | reading c =>
    have h : t.Is c.position := h
    rw [Tally.move, advance?, advance, Cursor.advance]
    cases c.rest with
    | nil => exact ⟨fun _ => ⟨rfl, h⟩, fun hfits => absurd h.fits hfits⟩
    | cons b rest =>
      refine ⟨fun hfits => ?_, fun hfits => ?_⟩
      · obtain ⟨hpast, his⟩ := h.past hfits
        refine ⟨?_, his⟩
        simp only [hpast, Option.map_some]
      · simp only [h.past?_eq_none hfits, Option.map_none]

/-- As long as the exact places fit, no move overflows and all places are exact. -/
theorem advanceBy?_of_fits {bytes : List UInt8} {k : Nat}
    (hfits : ∀ j ≤ k, (Tally.afterMoves bytes j).Fits) :
    (unread bytes).advanceBy? k = some ((unread bytes).advanceBy k) ∧
      (Tally.afterMoves bytes k).Is ((unread bytes).advanceBy k).position := by
  induction k with
  | zero => exact ⟨rfl, rfl, rfl⟩
  | succ k ih =>
    obtain ⟨hrun, his⟩ := ih fun j hj => hfits j (Nat.le_succ_of_le hj)
    obtain ⟨hmove, his'⟩ := (advance?_cases his).1 (hfits (k + 1) (Nat.le_refl _))
    rw [advanceBy?, hrun, Option.bind_some, advanceBy_succ_eq_advance]
    exact ⟨hmove, his'⟩

theorem advanceBy?_succ_of_not_fits {bytes : List UInt8} {k : Nat}
    (hfits : ∀ j ≤ k, (Tally.afterMoves bytes j).Fits)
    (hlarge : ¬ (Tally.afterMoves bytes (k + 1)).Fits) :
    (unread bytes).advanceBy? (k + 1) = none := by
  obtain ⟨hrun, his⟩ := advanceBy?_of_fits hfits
  rw [advanceBy?, hrun, Option.bind_some]
  exact (advance?_cases his).2 hlarge

end Reader

/-! Bounds of the exact places. -/

namespace Tally

def Within (t : Tally) : Reader → Prop
  | .unread _ => t = ⟨1, 0⟩
  | .reading c => 1 ≤ t.line ∧ t.line ≤ c.offset + 1 ∧ t.line + t.column ≤ c.offset + 2

theorem Within.move {t : Tally} {r : Reader} (h : t.Within r) : (t.move r).Within r.advance := by
  match r with
  | .unread [] =>
    obtain rfl : t = ⟨1, 0⟩ := h
    exact ⟨Nat.le_refl 1, Nat.le_refl 1, Nat.le_succ 1⟩
  | .unread (b :: rest) =>
    obtain rfl : t = ⟨1, 0⟩ := h
    exact ⟨Nat.le_refl 1, Nat.le_refl 1, Nat.le_refl 2⟩
  | .reading c =>
    obtain ⟨hpos, hline, hsum⟩ := h
    rw [Tally.move, Reader.advance, Cursor.advance]
    cases c.rest with
    | nil => exact ⟨hpos, hline, hsum⟩
    | cons b rest =>
      have hoffset : (b :: c.passed).length = c.offset + 1 := rfl
      dsimp only
      rw [Within, Cursor.offset, hoffset, past]
      split
      · dsimp only
        omega
      · dsimp only
        omega

theorem within_afterMoves (bytes : List UInt8) (k : Nat) :
    (afterMoves bytes k).Within ((Reader.unread bytes).advanceBy k) := by
  induction k with
  | zero => rfl
  | succ k ih =>
    rw [Reader.advanceBy_succ_eq_advance]
    exact ih.move

/-- However the breaks are spread, the line and the column are together at most two more than the
bytes. -/
theorem afterMoves_le (bytes : List UInt8) (k : Nat) :
    (afterMoves bytes k).line + (afterMoves bytes k).column ≤ bytes.length + 2 ∧
      (afterMoves bytes k).line ≤ bytes.length + 1 ∧
      (afterMoves bytes k).column ≤ bytes.length + 1 := by
  have hwithin := within_afterMoves bytes k
  have hbytes := (Reader.unread bytes).bytes_advanceBy k
  cases hreader : (Reader.unread bytes).advanceBy k with
  | unread _ =>
    rw [hreader] at hwithin
    rw [show afterMoves bytes k = ⟨1, 0⟩ from hwithin]
    dsimp only
    omega
  | reading c =>
    rw [hreader] at hwithin hbytes
    have hlength : c.passed.length + c.rest.length = bytes.length := by
      rw [← List.length_reverse, ← List.length_append]
      exact congrArg List.length hbytes
    obtain ⟨hpos, hline, hsum⟩ := hwithin
    rw [Cursor.offset] at hline hsum
    omega

/-- Without a break the line stays the first, and each byte takes one column. -/
theorem afterMoves_of_unbroken {bytes : List UInt8} (hne : bytes ≠ []) (h : Text.Unbroken bytes)
    {k : Nat} (hk : k ≤ bytes.length) : afterMoves bytes (k + 1) = ⟨1, k + 1⟩ := by
  induction k with
  | zero =>
    obtain ⟨b, rest, rfl⟩ := List.exists_cons_of_ne_nil hne
    rfl
  | succ k ih =>
    have hlt : k < bytes.length := hk
    have hrest : ((Cursor.ofBytes bytes).advanceBy k).rest = bytes[k] :: bytes.drop (k + 1) := by
      rw [Cursor.rest_advanceBy, Cursor.rest_ofBytes, List.drop_eq_getElem_cons hlt]
    have hbreak : Text.isLineBreak bytes[k] = false := h bytes[k] (List.getElem_mem hlt)
    rw [afterMoves, ih (Nat.le_of_lt hlt), Reader.advanceBy_unread_succ, move, hrest]
    simp only [past, Position.endsLine_of_not_isLineBreak hbreak]
    rfl

theorem fits_afterMoves {bytes : List UInt8} (h : bytes.length ≤ 2 ^ 32 - 2) (k : Nat) :
    (afterMoves bytes k).Fits := by
  obtain ⟨-, hline, hcolumn⟩ := afterMoves_le bytes k
  rw [Fits]
  omega

/-- With one byte more and without a break the last column fits and the one behind it does not. -/
theorem fits_afterMoves_of_unbroken {bytes : List UInt8} (hn : bytes.length = 2 ^ 32 - 1)
    (h : Text.Unbroken bytes) :
    (∀ k ≤ bytes.length, (afterMoves bytes k).Fits) ∧
      (afterMoves bytes bytes.length).column = 2 ^ 32 - 1 ∧
      ¬ (afterMoves bytes (bytes.length + 1)).Fits := by
  have hne : bytes ≠ [] := List.length_pos_iff.1 (by omega)
  have hexact {k : Nat} (hk : k ≤ bytes.length) : afterMoves bytes (k + 1) = ⟨1, k + 1⟩ :=
    afterMoves_of_unbroken hne h hk
  refine ⟨fun k hk => ?_, ?_, ?_⟩
  · cases k with
    | zero =>
      rw [afterMoves, Fits]
      decide
    | succ k =>
      rw [hexact (Nat.le_of_succ_le hk), Fits]
      dsimp only
      omega
  · obtain ⟨last, hlast⟩ := Nat.exists_eq_add_one_of_ne_zero (by omega : bytes.length ≠ 0)
    rw [hlast, hexact (by omega)]
    dsimp only
    omega
  · rw [hexact (Nat.le_refl _), Fits]
    dsimp only
    omega

end Tally

/-! The counter of the search for a line. -/

namespace Text

section
variable {α : Type} [DecidableEq α] [LineEndings α]

/-- Looks for a line as `lineFrom?` does, unless the counter of the lines overflows. A break at the
very end moves the counter too. -/
def lineFromChecked? (wanted number : UInt32) (seen : List α) : List α → Option (Option (List α))
  | [] => some (if number = wanted ∧ seen ≠ [] then some seen.reverse else none)
  | [a] =>
    if isLineBreak a then
      if number = wanted then some (some seen.reverse) else (addOne? number).map fun _ => none
    else some (if number = wanted then some (a :: seen).reverse else none)
  | a :: b :: rest =>
    if isLineBreak a then
      if number = wanted then some (some seen.reverse)
      else (addOne? number).bind fun next =>
        if a = LineEndings.carriageReturn ∧ b = LineEndings.lineFeed then
          lineFromChecked? wanted next [] rest
        else lineFromChecked? wanted next [] (b :: rest)
    else lineFromChecked? wanted number (a :: seen) (b :: rest)

/-- The counter has room for a line at each element. -/
theorem lineFromChecked?_eq (wanted : UInt32) {number : UInt32} (seen : List α) {text : List α}
    (h : number.toNat + text.length < 2 ^ 32) :
    lineFromChecked? wanted number seen text = some (lineFrom? wanted number seen text) := by
  -- An element ends one line at most, so the bound passes on to what is left.
  fun_induction lineFrom? wanted number seen text with
  | case1 number seen hfound => rw [lineFromChecked?, if_pos hfound]
  | case2 number seen hfound => rw [lineFromChecked?, if_neg hfound]
  | case3 seen a ha => rw [lineFromChecked?, if_pos ha, if_pos rfl]
  | case4 number seen a ha hn =>
    rw [lineFromChecked?, if_pos ha, if_neg hn, addOne?_of_lt h]
    rfl
  | case5 seen a ha => rw [lineFromChecked?, if_neg ha, if_pos rfl]
  | case6 number seen a ha hn => rw [lineFromChecked?, if_neg ha, if_neg hn]
  | case7 seen a b rest ha => rw [lineFromChecked?, if_pos ha, if_pos rfl]
  | case8 number seen a b rest ha hn hpair ih =>
    simp only [List.length_cons] at h
    have hone : number.toNat + 1 < 2 ^ 32 := by omega
    rw [lineFromChecked?, if_pos ha, if_neg hn, addOne?_of_lt hone, Option.bind_some,
      if_pos hpair]
    apply ih
    rw [Position.toNat_add_one hone]
    omega
  | case9 number seen a b rest ha hn hpair ih =>
    simp only [List.length_cons] at h ih
    have hone : number.toNat + 1 < 2 ^ 32 := by omega
    rw [lineFromChecked?, if_pos ha, if_neg hn, addOne?_of_lt hone, Option.bind_some,
      if_neg hpair]
    apply ih
    rw [Position.toNat_add_one hone]
    omega
  | case10 number seen a b rest ha ih =>
    rw [lineFromChecked?, if_neg ha]
    apply ih
    rw [List.length_cons] at h
    omega

end

/-- A text has no more characters than bytes. -/
theorem length_le_length_encode (chars : List Char) : chars.length ≤ (encode chars).length := by
  induction chars with
  | nil => exact Nat.le_refl 0
  | cons c chars ih =>
    have hpos := List.length_pos_iff.2 (utf8EncodeChar_ne_nil c)
    rw [encode_cons, List.length_append, List.length_cons]
    omega

end Text

def lineOfChecked? (content : String) (wanted : UInt32) : Option (Option String) :=
  if wanted = 0 then some none
  else (Text.lineFromChecked? wanted 1 [] content.toList).map (·.map String.ofList)

theorem lineOfChecked?_eq {content : String} (h : content.toList.length ≤ 2 ^ 32 - 2)
    (wanted : UInt32) : lineOfChecked? content wanted = some (lineOf? content wanted) := by
  rw [lineOfChecked?, lineOf?, Text.line?]
  split
  · rfl
  · have hroom : (1 : UInt32).toNat + content.toList.length < 2 ^ 32 := by
      rw [UInt32.toNat_one]
      omega
    rw [Text.lineFromChecked?_eq wanted [] hroom]
    rfl

/-- The counters of a source with `n` bytes, after any number of moves. In exact arithmetic the line
and the column are together at most `n + 2`, and neither is more than `n + 1`. So if `n` is at most
`2 ^ 32 - 2`, no addition overflows, neither in a move nor in the search for a line of the source as
a text. This is the limit: in a source of one byte more and without line breaks all moves but the
one past the last byte are right, and there the column overflows. -/
theorem Reader.counter_limits (bytes : List UInt8) :
    let r := unread bytes
    (∀ k, let t := Tally.afterMoves bytes k
      t.line + t.column ≤ bytes.length + 2 ∧ t.line ≤ bytes.length + 1 ∧
        t.column ≤ bytes.length + 1) ∧
    (bytes.length ≤ 2 ^ 32 - 2 →
      (∀ k, r.advanceBy? k = some (r.advanceBy k) ∧
        (Tally.afterMoves bytes k).Is (r.advanceBy k).position) ∧
      ∀ content wanted, Text.utf8 content = bytes ∨ content = Text.ofUtf8Lossy bytes →
        lineOfChecked? content wanted = some (lineOf? content wanted)) ∧
    (bytes.length = 2 ^ 32 - 1 → (∀ b ∈ bytes, b ≠ Byte.lineFeed ∧ b ≠ Byte.carriageReturn) →
      (∀ k ≤ bytes.length, r.advanceBy? k = some (r.advanceBy k)) ∧
        addOne? (r.advanceBy bytes.length).position.column = none ∧
        r.advanceBy? (bytes.length + 1) = none) := by
  intro r
  refine ⟨Tally.afterMoves_le bytes, fun hn => ⟨fun k => ?_, ?_⟩, fun hn hbytes => ?_⟩
  · exact advanceBy?_of_fits fun j _ => Tally.fits_afterMoves hn j
  · intro content wanted hcontent
    apply lineOfChecked?_eq
    rcases hcontent with rfl | rfl
    · exact (Text.length_le_length_encode content.toList).trans hn
    · rw [Text.ofUtf8Lossy, String.toList_ofList]
      exact (Text.Utf8.length_decode_le bytes).trans hn
  · have hunbroken : Text.Unbroken bytes := fun b hb =>
      Text.isLineBreak_eq_false_iff.2 (hbytes b hb)
    obtain ⟨hfits, hlast, hlarge⟩ := Tally.fits_afterMoves_of_unbroken hn hunbroken
    refine ⟨fun k hk => ?_, ?_, advanceBy?_succ_of_not_fits hfits hlarge⟩
    · exact (advanceBy?_of_fits fun j hj => hfits j (hj.trans hk)).1
    · obtain ⟨-, hcolumn⟩ := (advanceBy?_of_fits hfits).2
      apply addOne?_of_le
      rw [hcolumn, hlast]
      decide

/-- A source of letters alone reaches the limit. -/
theorem Reader.counter_limits_letters :
    let bytes := List.replicate (2 ^ 32 - 1) 0x61
    let r := unread bytes
    (∀ k ≤ bytes.length, r.advanceBy? k = some (r.advanceBy k)) ∧
      addOne? (r.advanceBy bytes.length).position.column = none ∧
      r.advanceBy? (bytes.length + 1) = none := by
  intro bytes r
  obtain ⟨-, -, hlimit⟩ := counter_limits bytes
  apply hlimit List.length_replicate
  intro b hb
  rw [List.eq_of_mem_replicate hb]
  decide

end Lexis
