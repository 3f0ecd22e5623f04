import Lexis.Proofs.Excerpts
import Lexis.Proofs.LineSlices

/-! The lines of bytes and the lines of their text.
The lines are counted in the bytes of a source, and a line is shown as a line of its text, in which
malformed bytes have been replaced, as `Utf8.decodes_iff` says. No replacement swallows, makes or
joins an ending, so both are the same lines. -/
namespace Lexis

open Text

private theorem lineOf?_position_joined {bytes : List UInt8} (hn : bytes.length ≤ 2 ^ 32 - 2)
    {front back : List (Line UInt8)} {l : Line UInt8} (h : Split (front ++ l :: back))
    (hjoined : joined (front ++ l :: back) = bytes) {offset : Nat}
    (hoffset : offset < l.whole.length) {k : Nat} (hk : k = (joined front).length + offset) :
    let p := ((Reader.unread bytes).advanceBy (k + 1)).position
    p.line.toNat = front.length + 1 ∧
      lineOf? (ofUtf8Lossy bytes) p.line = some (ofUtf8Lossy l.text) := by
  intro p
  have hplace : p = .ofIndex bytes k := by
    have hlt : k < bytes.length := by
      have hlength := congrArg List.length hjoined
      rw [joined_append, List.length_append, joined, joined, List.flatMap_cons,
        List.length_append] at hlength
      rw [joined] at hk
      omega
    have hreader := Reader.position_advanceBy_unread_succ bytes k
    rwa [Nat.min_eq_left (Nat.le_of_lt hlt)] at hreader
  have hnumber : p.line.toNat = front.length + 1 := by
    rw [hplace, hk, ← hjoined]
    exact (Position.toNat_ofIndex_joined h hoffset (by rwa [hjoined])).1
  refine ⟨hnumber, ?_⟩
  rw [← lineOf?_of_toNat_eq h hnumber, hjoined]

/-- Bytes are split into lines in one way only. A line of their text is the text of the line of the
bytes with the same number, which is also the number that a scan has counted when it stands in this
line. So the line shown with a failure is the text of the line of the fault. -/
theorem lineOf?_ofUtf8Lossy_split {bytes : List UInt8} (hn : bytes.length ≤ 2 ^ 32 - 2) :
    ∃ ls : List (Line UInt8), (Split ls ∧ joined ls = bytes) ∧
      (∀ other, Split other → joined other = bytes → other = ls) ∧
      (∀ number, lineOf? (ofUtf8Lossy bytes) number =
        if number = 0 then none else ls[number.toNat - 1]?.map fun l => ofUtf8Lossy l.text) ∧
      (∀ k, k < bytes.length → ∃ front l back offset, ls = front ++ l :: back ∧
        k = (joined front).length + offset ∧ offset < l.whole.length ∧
        let p := ((Reader.unread bytes).advanceBy (k + 1)).position
        p.line.toNat = front.length + 1 ∧
          lineOf? (ofUtf8Lossy bytes) p.line = some (ofUtf8Lossy l.text)) ∧
      ∀ (settings : CommandLine.Settings) (tokens : List Token) (failure : Failure),
        (Scan.ofBytes bytes (some (settings.name.getD settings.path.sourceName))).Run tokens
          (.error failure) →
        ∃ p front l back, failure.position = some p ∧ ls = front ++ l :: back ∧
          p.line.toNat = front.length + 1 ∧
          ∀ obstacle, (settings.answer (.ok bytes)).outcome obstacle = ⟨1, "", String.join
            (Report.ofDiagnostic settings.colour failure.diagnostic ::
              (Report.excerpt (ofUtf8Lossy l.text) p ++ Report.advice failure.fault))⟩ := by
  obtain ⟨hsplit, hjoined⟩ := split_lines bytes
  refine ⟨lines bytes, ⟨hsplit, hjoined⟩, ?_, ?_, ?_, ?_⟩
  · intro other hother hsame
    exact hsplit.unique hother (hsame.trans hjoined.symm)
  · intro number
    have hline := lineOf?_ofUtf8Lossy hsplit number
    rwa [hjoined] at hline
  · intro k hk
    rw [← hjoined] at hk
    obtain ⟨front, l, back, offset, hlines, hoffset, hindex⟩ := exists_line_of_lt_length hk
    rw [hlines] at hsplit hjoined
    exact ⟨front, l, back, offset, hlines, hindex, hoffset,
      lineOf?_position_joined hn hsplit hjoined hoffset hindex⟩
  · intro settings tokens failure hrun
    obtain ⟨k, front, l, back, offset, hwithin, -, hposition⟩ := hrun.exists_withinLine
    refine ⟨_, front, l, back, hposition, ?_, (hwithin.ofIndex_eq hn).1, fun obstacle => ?_⟩
    · exact (hsplit.unique hwithin.split (hwithin.bytes_eq.symm.trans hjoined.symm)).symm
    · rw [CommandLine.Settings.outcome_of_run hrun,
        Report.ofFailure_eq settings.colour hposition (hwithin.lineOf?_eq hn)]

/-- A character breaks off before the first ending, and the second line ends in a byte that begins
none. Each is replaced once, and the quote is in the second line of the text as well. -/
theorem lineOf?_ofUtf8Lossy_split_broken_character :
    let bytes := utf8 "//" ++ [0xe2, 0x82, 0x0d, 0x0a, 0x22, 0xff]
    let settings : CommandLine.Settings := ⟨.ofString "a.dm", none, false, false, false⟩
    let failure : Failure := ⟨.illegalCharacter '"' 0x22, some ⟨2, 1⟩, "a.dm"⟩
    bytes.length ≤ 2 ^ 32 - 2 ∧
      (Scan.ofBytes bytes (some (settings.name.getD settings.path.sourceName))).Run []
        (.error failure) ∧
      lineOf? (ofUtf8Lossy bytes) 1 = some "//\ufffd" ∧
      lineOf? (ofUtf8Lossy bytes) 3 = none ∧
      (settings.answer (.ok bytes)).outcome none =
        ⟨1, "", "a.dm: 2:1 Error: Illegal character '\"' (ASCII #34) found\n" ++
          "  |\n2 | \"\ufffd\n  | ^\n"⟩ := by
  intro bytes settings failure
  have hn : bytes.length ≤ 2 ^ 32 - 2 := by decide
  have hname : settings.name.getD settings.path.sourceName = "a.dm" := by decide
  obtain ⟨hblank, hstart⟩ := not_startsLexeme (b := 0x22) (.inl rfl)
  have hgap : Gap.Fills (utf8 "//" ++ [0xe2, 0x82] ++ [0x0d, 0x0a]) [0x22, 0xff] :=
    .line ⟨[0xe2, 0x82], by decide, rfl⟩ (.blank (by decide) (.blank (by decide) .nil))
  have hrejected : Rejected bytes (.last (utf8 "//" ++ [0xe2, 0x82] ++ [0x0d, 0x0a])) [0x22] [0xff]
      (.illegalCharacter '"' 0x22) 0 :=
    ⟨rfl, .last hgap, .illegal hblank hstart rfl⟩
  have hrun : (Scan.ofBytes bytes (some (settings.name.getD settings.path.sourceName))).Run []
      (.error failure) := by
    rw [hname]
    exact hrejected.run (some "a.dm")
  obtain ⟨ls, -, hunique, hline, -, hanswer⟩ := lineOf?_ofUtf8Lossy_split hn
  have hsplit : Split [⟨utf8 "//" ++ [0xe2, 0x82], [0x0d, 0x0a]⟩, ⟨[0x22, 0xff], []⟩] :=
    .cons (by decide) .both (.last (by decide) (by decide))
  obtain rfl := hunique _ hsplit rfl
  refine ⟨hn, hrun, (hline 1).trans (by decide), (hline 3).trans (by decide), ?_⟩
  obtain ⟨p, front, l, back, hp, hlines, hnumber, htext⟩ := hanswer settings [] failure hrun
  obtain rfl := Option.some.inj hp
  -- The line of the fault is the second one.
  obtain ⟨first, rfl⟩ : ∃ first, front = [first] := List.length_eq_one_iff.1 (by simpa using hnumber.symm)
  obtain ⟨-, hl⟩ := List.cons.inj hlines
  obtain ⟨rfl, -⟩ := List.cons.inj hl
  exact (htext none).trans (by decide)

end Lexis
