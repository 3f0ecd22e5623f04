import Mathlib.Data.Nat.Count
import Mathlib.Data.Nat.Find
import Lexis.Cursor

/-! Line breaks by index, and the closed form of positions.
A cursor counts lines and columns byte by byte. Here they are read off the whole source: the line
counts the breaks before an index, and the column counts from the end of the last of them. -/
namespace Lexis

namespace Position

/-- A line ends with the byte at index `i`: a line feed, or a carriage return that no line feed
follows directly. -/
def BreakAt (bytes : List UInt8) (i : Nat) : Prop :=
  bytes[i]? = some Byte.lineFeed ∨
    (bytes[i]? = some Byte.carriageReturn ∧ bytes[i + 1]? ≠ some Byte.lineFeed)

instance (bytes : List UInt8) : DecidablePred (BreakAt bytes) := fun i =>
  inferInstanceAs (Decidable (bytes[i]? = some Byte.lineFeed ∨
    (bytes[i]? = some Byte.carriageReturn ∧ bytes[i + 1]? ≠ some Byte.lineFeed)))

/-- The index just after the last break that ends before index `i`, or zero without one. -/
def lineStart (bytes : List UInt8) (i : Nat) : Nat :=
  Nat.findGreatest (fun j => 0 < j ∧ BreakAt bytes (j - 1)) i

def ofIndex (bytes : List UInt8) (i : Nat) : Position :=
  if bytes = [] then start
  else ⟨.ofNat (1 + Nat.count (BreakAt bytes) i), .ofNat (i - lineStart bytes i + 1)⟩

theorem lineStart_le (bytes : List UInt8) (i : Nat) : lineStart bytes i ≤ i :=
  Nat.findGreatest_le i

theorem lineStart_succ_of_break {bytes : List UInt8} {i : Nat} (h : BreakAt bytes i) :
    lineStart bytes (i + 1) = i + 1 :=
  Nat.findGreatest_eq ⟨Nat.succ_pos i, h⟩

theorem lineStart_succ_of_not_break {bytes : List UInt8} {i : Nat} (h : ¬ BreakAt bytes i) :
    lineStart bytes (i + 1) = lineStart bytes i :=
  Nat.findGreatest_of_not fun hb => h hb.2

private theorem endsLine_iff {bytes : List UInt8} {i : Nat} {b : UInt8} (hb : bytes[i]? = some b) :
    endsLine b bytes[i + 1]? = true ↔ BreakAt bytes i := by
  simp [endsLine, BreakAt, hb]

/-- The closed form obeys the rule by which a cursor moves past one byte. -/
theorem ofIndex_succ {bytes : List UInt8} {i : Nat} {b : UInt8} (hb : bytes[i]? = some b) :
    ofIndex bytes (i + 1) = (ofIndex bytes i).past b bytes[i + 1]? := by
  have hne : bytes ≠ [] := by
    rintro rfl
    simp at hb
  simp only [ofIndex, if_neg hne, Nat.count_succ]
  by_cases h : BreakAt bytes i
  · rw [past_of_endsLine ((endsLine_iff hb).2 h), lineStart_succ_of_break h, if_pos h, Nat.sub_self,
      ← Nat.add_assoc, UInt32.ofNat_add _ 1]
    rfl
  · have hends : endsLine b bytes[i + 1]? = false := by
      rw [← Bool.not_eq_true, endsLine_iff hb]
      exact h
    have hle := lineStart_le bytes i
    rw [past_of_not_endsLine hends, lineStart_succ_of_not_break h, if_neg h, Nat.sub_add_comm hle,
      UInt32.ofNat_add _ 1]
    rfl

theorem ofIndex_zero {bytes : List UInt8} (h : bytes ≠ []) : ofIndex bytes 0 = first := by
  simp only [ofIndex, if_neg h, Nat.count_zero, lineStart, Nat.findGreatest_zero]
  rfl

/-- The place of a byte depends on nothing behind that byte. -/
theorem ofIndex_append {front : List UInt8} {i : Nat} (h : i < front.length) (back : List UInt8) :
    ofIndex (front ++ back) i = ofIndex front i := by
  induction i with
  | zero =>
    have hne : front ≠ [] := List.length_pos_iff.1 h
    rw [ofIndex_zero hne, ofIndex_zero (by simp [hne])]
  | succ i ih =>
    have hi : i < front.length := by omega
    have hfront : front[i]? = some front[i] := List.getElem?_eq_getElem hi
    have hwhole : (front ++ back)[i]? = some front[i] := by
      rw [List.getElem?_append_left hi, hfront]
    rw [ofIndex_succ hwhole, ofIndex_succ hfront, ih hi, List.getElem?_append_left h]

/-- Below the limit of 32 bits nothing wraps: the line is one more than the breaks before the
index, and the column is one more than the distance to the start of the line. -/
theorem toNat_ofIndex {bytes : List UInt8} {i : Nat} (hne : bytes ≠ []) (hi : i ≤ 2 ^ 32 - 2) :
    (ofIndex bytes i).line.toNat = 1 + Nat.count (BreakAt bytes) i ∧
      (ofIndex bytes i).column.toNat = i - lineStart bytes i + 1 := by
  have hcount : Nat.count (BreakAt bytes) i ≤ i := Nat.count_le _
  simp only [ofIndex, if_neg hne]
  constructor
  · exact UInt32.toNat_ofNat_of_lt' (by simp only [UInt32.size]; omega)
  · exact UInt32.toNat_ofNat_of_lt' (by simp only [UInt32.size]; omega)

/-- No place is in a line beyond the number of bytes before it. -/
theorem toNat_line_ofIndex_le (bytes : List UInt8) {i : Nat} (hi : i ≤ 2 ^ 32 - 2) :
    1 ≤ (ofIndex bytes i).line.toNat ∧ (ofIndex bytes i).line.toNat ≤ i + 1 := by
  by_cases hne : bytes = []
  · rw [ofIndex, if_pos hne]
    exact ⟨Nat.le_refl 1, Nat.le_add_left 1 i⟩
  · have hcount : Nat.count (BreakAt bytes) i ≤ i := Nat.count_le _
    rw [(toNat_ofIndex hne hi).1]
    omega

end Position

namespace Cursor

/-- A cursor that has moved past `i` bytes stands at the place of the byte at index `i`. -/
theorem position_advanceBy_ofBytes (bytes : List UInt8) {i : Nat} (h : i ≤ bytes.length) :
    ((ofBytes bytes).advanceBy i).position = .ofIndex bytes i := by
  induction i with
  | zero =>
    cases bytes with
    | nil => rfl
    | cons b rest => rw [Position.ofIndex_zero (by simp)]; rfl
  | succ i ih =>
    have hi : i < bytes.length := by omega
    have hrest : ((ofBytes bytes).advanceBy i).rest = bytes[i] :: bytes.drop (i + 1) := by
      rw [rest_advanceBy, rest_ofBytes, List.drop_eq_getElem_cons hi]
    have hlast : (ofBytes bytes).advanceBy (i + 1) = ((ofBytes bytes).advanceBy i).advance :=
      (advanceBy_advanceBy _ i 1).symm
    rw [hlast, Position.ofIndex_succ (List.getElem?_eq_getElem hi), ← ih (by omega)]
    simp only [advance, hrest]
    rw [List.head?_drop]

theorem advanceBy_of_rest_eq_nil {c : Cursor} (h : c.rest = []) (k : Nat) : c.advanceBy k = c := by
  induction k with
  | zero => rfl
  | succ k ih => rw [advanceBy_succ, advance_of_rest_eq_nil h, ih]

/-- Beyond the end a cursor stays where it is. -/
theorem advanceBy_of_length_le {c : Cursor} {k : Nat} (h : c.rest.length ≤ k) :
    c.advanceBy k = c.toEnd := by
  obtain ⟨extra, rfl⟩ := Nat.exists_eq_add_of_le h
  rw [← advanceBy_advanceBy]
  exact advanceBy_of_rest_eq_nil c.rest_toEnd extra

theorem rest_advanceBy_length {c : Cursor} {front back : List UInt8} (h : c.rest = front ++ back) :
    (c.advanceBy front.length).rest = back := by
  rw [rest_advanceBy, h, List.drop_left]

theorem toEnd_advanceBy (c : Cursor) (k : Nat) : (c.advanceBy k).toEnd = c.toEnd := by
  rw [toEnd, rest_advanceBy, advanceBy_advanceBy, List.length_drop]
  apply advanceBy_of_length_le
  omega

theorem advanceBy_min_length (c : Cursor) (k : Nat) :
    c.advanceBy k = c.advanceBy (min k c.rest.length) := by
  rcases Nat.le_total k c.rest.length with h | h
  · rw [Nat.min_eq_left h]
  · rw [Nat.min_eq_right h]
    exact advanceBy_of_length_le h

end Cursor

namespace Reader

/-- The first move leads onto the first byte, and every other move past one. -/
theorem advanceBy_unread_succ (bytes : List UInt8) (k : Nat) :
    (unread bytes).advanceBy (k + 1) = reading ((Cursor.ofBytes bytes).advanceBy k) := by
  have hreading (c : Cursor) (k : Nat) : (reading c).advanceBy k = reading (c.advanceBy k) := by
    induction k generalizing c with
    | zero => rfl
    | succ k ih => exact ih c.advance
  exact hreading (.ofBytes bytes) k

theorem current?_advanceBy_unread_succ (bytes : List UInt8) (k : Nat) :
    ((unread bytes).advanceBy (k + 1)).current? = bytes[k]? := by
  rw [advanceBy_unread_succ]
  simp only [current?, Cursor.current?, Cursor.rest_advanceBy, Cursor.rest_ofBytes, List.head?_drop]

theorem peek?_advanceBy_unread_succ (bytes : List UInt8) (k : Nat) :
    ((unread bytes).advanceBy (k + 1)).peek? = bytes[k + 1]? := by
  rw [advanceBy_unread_succ]
  simp only [peek?, Cursor.peek?, Cursor.rest_advanceBy, Cursor.rest_ofBytes, List.tail_drop,
    List.head?_drop]

theorem position_advanceBy_unread_succ (bytes : List UInt8) (k : Nat) :
    ((unread bytes).advanceBy (k + 1)).position = .ofIndex bytes (min k bytes.length) := by
  rw [advanceBy_unread_succ, Cursor.advanceBy_min_length]
  exact Cursor.position_advanceBy_ofBytes bytes (Nat.min_le_right ..)

theorem advanceBy_unread_of_length_lt {bytes : List UInt8} {k : Nat} (h : bytes.length < k) :
    (unread bytes).advanceBy k = (unread bytes).advanceBy (bytes.length + 1) := by
  obtain ⟨k, rfl⟩ := Nat.exists_eq_succ_of_ne_zero (by omega : k ≠ 0)
  rw [Nat.succ_eq_add_one, advanceBy_unread_succ, advanceBy_unread_succ]
  congr 1
  exact Cursor.advanceBy_of_length_le (by simpa using Nat.le_of_lt_succ h)

/-- Everything that can be seen of a reader after `k` moves, in terms of the source alone. -/
theorem state_advanceBy_unread {bytes : List UInt8} (hn : bytes.length ≤ 2 ^ 32 - 2) (k : Nat) :
    let r := (unread bytes).advanceBy k
    let i := min (k - 1) bytes.length
    (k = 0 → r.current? = none ∧ r.peek? = none ∧ r.atEnd = true ∧ r.position = ⟨1, 0⟩) ∧
    (1 ≤ k → k ≤ bytes.length →
      r.current? = bytes[k - 1]? ∧ r.peek? = bytes[k]? ∧ r.atEnd = false) ∧
    (bytes.length < k →
      r.current? = none ∧ r.peek? = none ∧ r.atEnd = true ∧
        r = (unread bytes).advanceBy (bytes.length + 1)) ∧
    (bytes ≠ [] → 1 ≤ k →
      r.position.line.toNat = 1 + Nat.count (Position.BreakAt bytes) i ∧
        r.position.column.toNat = i - Position.lineStart bytes i + 1) ∧
    (bytes = [] → r.position = ⟨1, 0⟩) := by
  intro r i
  cases k with
  | zero =>
    refine ⟨fun _ => ⟨rfl, rfl, rfl, rfl⟩, ?_, ?_, ?_, fun _ => rfl⟩
    · intro h
      omega
    · intro h
      omega
    · intro _ h
      omega
  | succ k =>
    have hcurrent : r.current? = bytes[k]? := current?_advanceBy_unread_succ bytes k
    have hpeek : r.peek? = bytes[k + 1]? := peek?_advanceBy_unread_succ bytes k
    have hposition : r.position = .ofIndex bytes i := position_advanceBy_unread_succ bytes k
    have hi : i ≤ bytes.length := Nat.min_le_right ..
    refine ⟨fun h => absurd h k.succ_ne_zero, ?_, ?_, ?_, ?_⟩
    · intro _ hk
      refine ⟨hcurrent, hpeek, ?_⟩
      rw [atEnd, hcurrent, List.getElem?_eq_getElem (by omega)]
      rfl
    · intro hk
      have hnone : bytes[k]? = none := List.getElem?_eq_none (by omega)
      refine ⟨hcurrent.trans hnone, hpeek.trans (List.getElem?_eq_none (by omega)), ?_, ?_⟩
      · rw [atEnd, hcurrent, hnone]
        rfl
      · exact advanceBy_unread_of_length_lt hk
    · intro hne _
      rw [hposition]
      exact Position.toNat_ofIndex hne (by omega)
    · rintro rfl
      exact hposition

/-- After `a`, a carriage return with its line feed, and a lone carriage return, the reader stands
on the first column of line 3. -/
theorem state_advanceBy_unread_after_two_breaks :
    let bytes : List UInt8 := [0x61, 0x0d, 0x0a, 0x0d, 0x62]
    let r := (unread bytes).advanceBy 5
    bytes.length ≤ 2 ^ 32 - 2 ∧ r.current? = some 0x62 ∧ r.peek? = none ∧
      r.position.line.toNat = 3 ∧ r.position.column.toNat = 1 := by
  intro bytes r
  have hn : bytes.length ≤ 2 ^ 32 - 2 := by decide
  obtain ⟨-, hread, -, hplace, -⟩ := state_advanceBy_unread hn 5
  obtain ⟨hline, hcolumn⟩ := hplace (by decide) (by decide)
  obtain ⟨hcurrent, hpeek, -⟩ := hread (by decide) (by decide)
  exact ⟨hn, hcurrent, hpeek, hline.trans (by decide), hcolumn.trans (by decide)⟩

end Reader

end Lexis
