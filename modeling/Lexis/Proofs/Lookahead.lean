import Lexis.Proofs.Layout

/-! How far ahead a scan looks.
A token depends on the bytes up to its own end and on the one byte behind it, on which the scan then
stands. So sources that agree as far as that byte are read alike up to it, whatever they hold
further on and wherever they end. -/
namespace Lexis

/-- Only the first byte behind a lexeme matters to it. -/
theorem Lexeme.Stops.congr {l : Lexeme} {after after' : List UInt8} (h : l.Stops after)
    (hhead : after.head? = after'.head?) : l.Stops after' := by
  rwa [Stops, ← hhead]

section
variable {bytes bytes' : List UInt8} {n : Nat}

private theorem take_eq_of_le (hsame : bytes'.take n = bytes.take n) {m : Nat} (hm : m ≤ n) :
    bytes'.take m = bytes.take m := by
  have htake := congrArg (List.take m) hsame
  rwa [List.take_take, List.take_take, Nat.min_eq_left hm] at htake

private theorem getElem?_of_take_eq (hsame : bytes'.take n = bytes.take n) {i : Nat}
    (hi : i < n) : bytes'[i]? = bytes[i]? := by
  rw [← List.getElem?_take_of_lt hi, hsame, List.getElem?_take_of_lt hi]

private theorem le_length_of_take_eq (hsame : bytes'.take n = bytes.take n)
    (hn : n ≤ bytes.length) : n ≤ bytes'.length := by
  have hlength := congrArg List.length hsame
  rw [List.length_take, List.length_take] at hlength
  omega

private theorem drop_of_take_eq {front after : List UInt8} {i : Nat}
    (hdrop : bytes.drop i = front ++ after) (hn : i + front.length < n) (hi : i ≤ bytes'.length)
    (hsame : bytes'.take n = bytes.take n) :
    bytes'.drop i = front ++ bytes'.drop (i + front.length) ∧
      (bytes'.drop (i + front.length)).head? = after.head? := by
  constructor
  · have hfront : (bytes'.take (i + front.length)).drop i = front := by
      rw [take_eq_of_le hsame (Nat.le_of_lt hn), List.drop_take, hdrop, Nat.add_sub_cancel_left,
        List.take_left]
    have hbound : i ≤ (bytes'.take (i + front.length)).length := by
      rw [List.length_take]
      omega
    calc bytes'.drop i
      _ = (bytes'.take (i + front.length) ++ bytes'.drop (i + front.length)).drop i := by
        rw [List.take_append_drop]
      _ = front ++ bytes'.drop (i + front.length) := by
        rw [List.drop_append_of_le_length hbound, hfront]
  · rw [List.head?_drop, getElem?_of_take_eq hsame hn, ← List.head?_drop, ← List.drop_drop, hdrop,
      List.drop_left]

/-- Where sources agree, the place of a byte is the same in both. -/
theorem Position.ofIndex_of_take_eq (hsame : bytes'.take n = bytes.take n) (hn : n ≤ bytes.length)
    {i : Nat} (hi : i < n) : ofIndex bytes' i = ofIndex bytes i := by
  have hlt : i < (bytes.take n).length := by
    rwa [List.length_take_of_le hn]
  rw [← List.take_append_drop n bytes', hsame, ofIndex_append hlt, ← ofIndex_append hlt,
    List.take_append_drop]

end

namespace Scan

theorem offset_atIndex {bytes : List UInt8} {i : Nat} (h : i ≤ bytes.length)
    (name : Option String) : (atIndex bytes name i).cursor.offset = i := by
  have hlength := congrArg List.length ((Cursor.ofBytes bytes).bytes_advanceBy i)
  rw [Cursor.bytes, List.length_append, List.length_reverse, Cursor.rest_advanceBy,
    List.length_drop, Cursor.bytes_ofBytes, Cursor.rest_ofBytes] at hlength
  change ((Cursor.ofBytes bytes).advanceBy i).passed.length = i
  omega

theorem current?_atIndex (bytes : List UInt8) (name : Option String) (i : Nat) :
    (atIndex bytes name i).cursor.current? = bytes[i]? := by
  rw [Cursor.current?, rest_atIndex, List.head?_drop]

section
variable {bytes : List UInt8} {name : Option String} {i : Nat} {s : Scan}

/-- A token other than the end has been read from a gap and a lexeme. -/
theorem exists_spelled_of_readToken {token : Token} (hi : i ≤ bytes.length)
    (h : (atIndex bytes name i).readToken = (.ok token, s)) (hkind : token.isEnd = false) :
    ∃ gap text after l, bytes.drop i = gap ++ (text ++ after) ∧ Gap.Fills gap (text ++ after) ∧
      Lexeme.Spelled l text ∧ l.Stops after := by
  obtain ⟨layout, rest, hdrop, hfits, hrest⟩ := Layout.exists_fits (bytes.drop i)
  cases hfits with
  | @cons gap text l behind _ hgap hspelled hstops _ =>
    obtain ⟨hsplit, -⟩ := Layout.drop_of_cons hi hdrop
    exact ⟨gap, text, _, l, hsplit, hgap, hspelled, hstops⟩
  | @last gap _ hgap =>
    exfalso
    rcases hrest with rfl | ⟨item, after, fault, offset, rfl, hoffence⟩
    · have hlast := readToken_of_end hi (hdrop.trans (List.append_nil _)) hgap name
      rw [h] at hlast
      cases hlast
      cases hkind
    · obtain ⟨s', herror⟩ := readToken_of_offence hi hdrop hgap hoffence name
      rw [h] at herror
      cases herror

/-- A token is read alike from all sources that agree as far as the byte behind it. -/
theorem exists_readToken_of_take_eq {token : Token} (hi : i ≤ bytes.length)
    (h : (atIndex bytes name i).readToken = (.ok token, s)) (hkind : token.isEnd = false) :
    ∃ j, i ≤ j ∧ j ≤ bytes.length ∧ s = atIndex bytes name j ∧
      (j < bytes.length → ∀ bytes' name', bytes'.take (j + 1) = bytes.take (j + 1) →
        (atIndex bytes' name' i).readToken = (.ok token, atIndex bytes' name' j)) := by
  obtain ⟨gap, text, after, l, hdrop, hgap, hspelled, hstops⟩ :=
    exists_spelled_of_readToken hi h hkind
  have hlength := congrArg List.length hdrop
  have hpos : 0 < text.length := List.length_pos_iff.2 hspelled.ne_nil
  rw [List.length_drop, List.length_append, List.length_append] at hlength
  have hstep := readToken_of_spelled hi hdrop hgap hspelled hstops name
  rw [h] at hstep
  cases hstep
  refine ⟨i + gap.length + text.length, by omega, by omega, rfl, ?_⟩
  intro hlt bytes' name' hsame
  have hi' : i ≤ bytes'.length := by
    have hle := le_length_of_take_eq hsame hlt
    omega
  have hfront : i + (gap ++ text).length = i + gap.length + text.length := by
    rw [List.length_append, Nat.add_assoc]
  rw [← List.append_assoc] at hdrop
  obtain ⟨hdrop', hhead⟩ := drop_of_take_eq hdrop (by omega) hi' hsame
  rw [hfront, List.append_assoc] at hdrop'
  rw [hfront] at hhead
  have hgap' : Gap.Fills gap (text ++ bytes'.drop (i + gap.length + text.length)) := by
    refine hgap.congr ?_
    rw [List.head?_append, List.head?_append, hhead]
  have hstops' := hstops.congr hhead.symm
  have hstep := readToken_of_spelled hi' hdrop' hgap' hspelled hstops' name'
  rwa [Position.ofIndex_of_take_eq hsame hlt (by omega)] at hstep

/-- All tokens are read alike from sources that agree as far as the byte behind the last of them. -/
theorem Reads.exists_of_take_eq {tokens : List Token} (h : (atIndex bytes name i).Reads tokens s)
    (hi : i ≤ bytes.length) :
    ∃ j, i ≤ j ∧ j ≤ bytes.length ∧ s = atIndex bytes name j ∧
      (j < bytes.length → ∀ bytes' name', bytes'.take (j + 1) = bytes.take (j + 1) →
        (atIndex bytes' name' i).Reads tokens (atIndex bytes' name' j)) := by
  generalize hfrom : atIndex bytes name i = s₀ at h
  induction h generalizing i with
  | nil => exact ⟨i, Nat.le_refl i, hi, hfrom.symm, fun _ _ _ _ => .nil⟩
  | cons hstep hkind _ ih =>
    subst hfrom
    obtain ⟨m, him, hm, rfl, hsame⟩ := exists_readToken_of_take_eq hi hstep hkind
    obtain ⟨j, hmj, hj, hlast, hbehind⟩ := ih hm rfl
    refine ⟨j, him.trans hmj, hj, hlast, ?_⟩
    intro hlt bytes' name' htake
    have htake' := take_eq_of_le htake (Nat.succ_le_succ hmj)
    exact .cons (hsame (by omega) bytes' name' htake') hkind (hbehind hlt bytes' name' htake)

/-- A scan looks one byte ahead: where it has read tokens and stands on a byte, it has read them
from this byte and those before it. From any other source that begins with the same bytes the same
tokens are read, at the same places, and the scan then stands in the same place. -/
theorem reads_of_take_eq {tokens : List Token} (h : (ofBytes bytes name).Reads tokens s)
    (hahead : s.cursor.offset < bytes.length) :
    s.cursor.current? = bytes[s.cursor.offset]? ∧
      ∀ bytes' name',
        bytes'.take (s.cursor.offset + 1) = bytes.take (s.cursor.offset + 1) →
        ∃ s', (ofBytes bytes' name').Reads tokens s' ∧ s'.cursor.offset = s.cursor.offset ∧
          s'.cursor.current? = s.cursor.current? ∧ s'.cursor.position = s.cursor.position := by
  obtain ⟨j, -, hj, rfl, hsame⟩ := Reads.exists_of_take_eq (i := 0) h (Nat.zero_le _)
  rw [offset_atIndex hj] at hahead ⊢
  refine ⟨current?_atIndex bytes name j, ?_⟩
  intro bytes' name' htake
  have hj' : j ≤ bytes'.length := Nat.le_of_lt (le_length_of_take_eq htake hahead)
  refine ⟨_, hsame hahead bytes' name' htake, offset_atIndex hj' name', ?_, ?_⟩
  · rw [current?_atIndex, current?_atIndex, getElem?_of_take_eq htake (Nat.lt_succ_self j)]
  · rw [position_atIndex hj, position_atIndex hj',
      Position.ofIndex_of_take_eq htake hahead (Nat.lt_succ_self j)]

end

/-- Behind a comment and an assignment the scan stands on a quote. What is behind the quote differs,
but the tokens before it do not. -/
theorem reads_of_take_eq_quote :
    let bytes := Text.utf8 "a/-\r-/=\"b"
    let bytes' := Text.utf8 "a/-\r-/=\"" ++ [0xff]
    let tokens : List Token :=
      [⟨.identifier, .word "a", ⟨1, 1⟩⟩, ⟨.symbol .assign, .none, ⟨2, 3⟩⟩]
    ∃ s s', (ofBytes bytes none).Reads tokens s ∧ s.cursor.offset = 7 ∧ 7 < bytes.length ∧
      bytes'.take 8 = bytes.take 8 ∧
      (ofBytes bytes' none).Reads tokens s' ∧ s'.cursor.offset = 7 := by
  intro bytes bytes' tokens
  have hword : Lexeme.Spelled ⟨.identifier, .word "a"⟩ (Text.utf8 "a") :=
    .identifier (by decide) (by decide) (by decide)
  have hassign : Lexeme.Spelled ⟨.symbol .assign, .none⟩ (Text.utf8 "=") := .symbol (by decide) rfl
  have hinside : Comment.Inside [Byte.carriageReturn] Comment.closing :=
    .other (by decide) (by decide) .nil
  have hgap : Gap.Fills (Text.utf8 "/-\r-/") (Text.utf8 "=" ++ Text.utf8 "\"b") :=
    Gap.fills_of_comment (.inr ⟨_, hinside, rfl⟩)
  have hnone : Gap.Fills [] (Text.utf8 "a" ++ Text.utf8 "/-\r-/=\"b") := .nil
  have hfirst : (atIndex bytes none 0).readToken =
      (.ok ⟨.identifier, .word "a", .ofIndex bytes 0⟩, atIndex bytes none 1) :=
    readToken_of_spelled (by decide) rfl hnone hword (by decide) none
  have hsecond : (atIndex bytes none 1).readToken =
      (.ok ⟨.symbol .assign, .none, .ofIndex bytes 6⟩, atIndex bytes none 7) :=
    readToken_of_spelled (by decide) rfl hgap hassign (by decide) none
  have hrun : (ofBytes bytes none).Reads tokens (atIndex bytes none 7) :=
    .cons hfirst rfl (.cons hsecond rfl .nil)
  have hoffset : (atIndex bytes none 7).cursor.offset = 7 := offset_atIndex (by decide) none
  have hahead : (atIndex bytes none 7).cursor.offset < bytes.length := by
    rw [hoffset]
    decide
  obtain ⟨-, hsame⟩ := reads_of_take_eq hrun hahead
  rw [hoffset] at hsame
  obtain ⟨s', hrun', hoffset', -⟩ := hsame bytes' none (by decide)
  exact ⟨_, s', hrun, hoffset, by decide, by decide, hrun', hoffset'⟩

end Scan

end Lexis
