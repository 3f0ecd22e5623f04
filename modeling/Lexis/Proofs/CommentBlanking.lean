import Lexis.Proofs.LineBreaks
import Lexis.Proofs.Rejection

/-! Comments as white space.
If every byte of a comment that a scan skips is overwritten with a space, except for the bytes of
line endings, a scan of what results reads the same at the same places. -/
namespace Lexis

namespace Byte

/-- A space in place of a byte, but a byte of a line ending stays. -/
def blanked (b : UInt8) : UInt8 :=
  if isLineBreak b then b else 0x20

theorem blanked_mem_whiteSpace (b : UInt8) : blanked b ∈ Gap.whiteSpace := by
  rw [blanked]
  split
  · next h =>
    by_contra hblank
    have hother : isLineBreak b = false := Gap.isLineBreak_of_not_mem_whiteSpace hblank
    rw [hother] at h
    cases h
  · decide

theorem blanked_blanked (b : UInt8) : blanked (blanked b) = blanked b := by
  rw [blanked.eq_def b]
  split
  · next h => rw [blanked, if_pos h]
  · rfl

/-- The endings are where they were. -/
theorem blanked_eq_iff {b c : UInt8} (hc : isLineBreak c = true) : blanked b = c ↔ b = c := by
  rw [blanked]
  split
  · rfl
  · next h =>
    constructor
    · rintro rfl
      exact absurd hc (by decide)
    · rintro rfl
      exact absurd hc h

end Byte

namespace Position

private theorem getElem?_map_blanked {bytes : List UInt8} {i : Nat} {c : UInt8}
    (hc : Byte.isLineBreak c = true) :
    (bytes.map Byte.blanked)[i]? = some c ↔ bytes[i]? = some c := by
  simp only [List.getElem?_map, Option.map_eq_some_iff, Byte.blanked_eq_iff hc, exists_eq_right]

/-- Sources with the same endings at the same indices have the same places. -/
theorem ofIndex_of_map_blanked_eq {bytes bytes' : List UInt8}
    (h : bytes'.map Byte.blanked = bytes.map Byte.blanked) (i : Nat) :
    ofIndex bytes' i = ofIndex bytes i := by
  have hbyte {c : UInt8} (hc : Byte.isLineBreak c = true) (i : Nat) :
      bytes'[i]? = some c ↔ bytes[i]? = some c := by
    rw [← getElem?_map_blanked hc, h, getElem?_map_blanked hc]
  have hlf := hbyte (c := Byte.lineFeed) rfl
  have hcr := hbyte (c := Byte.carriageReturn) rfl
  have hbreak : BreakAt bytes' = BreakAt bytes := by
    funext i
    simp only [BreakAt, ne_eq, hlf, hcr]
  have hnil : bytes' = [] ↔ bytes = [] := by
    rw [← List.map_eq_nil_iff (f := Byte.blanked), h, List.map_eq_nil_iff]
  simp only [ofIndex, lineStart, hbreak, hnil]

end Position

private theorem Comment.Line.of_append {comment gap after : List UInt8}
    (h : Comment.Line comment (gap ++ after)) : Comment.Line comment gap := by
  obtain ⟨text, ⟨hall, hstops⟩, rfl⟩ := h
  refine ⟨text, ⟨hall, fun b hb => hstops b ?_⟩, rfl⟩
  rw [List.head?_append, Option.mem_def.1 hb]
  rfl

namespace Gap

/-- The bytes ahead, with the comments of the gap at their front overwritten. The gap ends at a byte
that is no blank and begins no comment, or at a comment that is left open, and all is kept from
there on. -/
def uncommented (ahead : List UInt8) : List UInt8 :=
  match ahead with
  | [] => []
  | b :: rest =>
    if b ∈ whiteSpace then b :: uncommented rest
    else
      match hf : Comment.form? (b :: rest) with
      | none => b :: rest
      | some form =>
        match h : Comment.extent form (b :: rest) with
        | .unclosed _ => b :: rest
        | .upTo length =>
          have := Comment.length_pos_of_extent_eq_upTo hf h
          ((b :: rest).take length).map Byte.blanked ++ uncommented ((b :: rest).drop length)
termination_by ahead.length

theorem uncommented_cons_of_blank {b : UInt8} (hb : b ∈ whiteSpace) (rest : List UInt8) :
    uncommented (b :: rest) = b :: uncommented rest := by
  rw [uncommented, if_pos hb]

theorem uncommented_of_clear {ahead : List UInt8} (h : Clear ahead) :
    uncommented ahead = ahead := by
  cases ahead with
  | nil => rw [uncommented]
  | cons b rest =>
    have hform := Comment.form?_eq_none h.notLine h.notBlock
    rw [uncommented, if_neg (h.notBlank b rfl)]
    split
    · rfl
    · next hf => simp [hform] at hf

private theorem uncommented_append_of_extent {comment rest : List UInt8} {form : Comment.Form}
    (hslash : comment.head? = some Byte.slash)
    (hform : Comment.form? (comment ++ rest) = some form)
    (hextent : Comment.extent form (comment ++ rest) = .upTo comment.length) :
    uncommented (comment ++ rest) = comment.map Byte.blanked ++ uncommented rest := by
  obtain ⟨text, rfl⟩ := List.head?_eq_some_iff.1 hslash
  rw [List.cons_append] at hform hextent ⊢
  rw [uncommented, if_neg (by decide)]
  split
  · next hf => simp [hform] at hf
  · next form' hf =>
    obtain rfl : form = form' := by simpa [hform] using hf
    split
    · next h => simp [hextent] at h
    · next length h =>
      obtain rfl : (Byte.slash :: text).length = length := by simpa [hextent] using h
      have htake : (Byte.slash :: (text ++ rest)).take (Byte.slash :: text).length =
          Byte.slash :: text := List.take_left
      have hdrop : (Byte.slash :: (text ++ rest)).drop (Byte.slash :: text).length = rest :=
          List.drop_left
      simp only [htake, hdrop]

theorem uncommented_line_append {comment rest : List UInt8} (h : Comment.Line comment rest) :
    uncommented (comment ++ rest) = comment.map Byte.blanked ++ uncommented rest := by
  have hextent : Comment.extent .line (comment ++ rest) = .upTo comment.length :=
    congrArg Extent.upTo h.lineLength_append
  obtain ⟨text, -, rfl⟩ := h
  exact uncommented_append_of_extent rfl (Comment.form?_lineMark _) hextent

theorem uncommented_block_append {comment : List UInt8} (h : Comment.Block comment)
    (rest : List UInt8) :
    uncommented (comment ++ rest) = comment.map Byte.blanked ++ uncommented rest := by
  have hextent : Comment.extent .block (comment ++ rest) = .upTo comment.length :=
    h.blockExtent_append rest
  obtain ⟨text, -, rfl⟩ := h
  exact uncommented_append_of_extent rfl (Comment.form?_opening _) hextent

/-- Nothing but comments changes, and in comments no ending does. -/
theorem map_blanked_uncommented (ahead : List UInt8) :
    (uncommented ahead).map Byte.blanked = ahead.map Byte.blanked := by
  fun_induction uncommented ahead with
  | case1 => rfl
  | case2 b rest _ ih => rw [List.map_cons, List.map_cons, ih]
  | case3 => rfl
  | case4 => rfl
  | case5 b rest _ form _ length _ _ ih =>
    have hmap : Byte.blanked ∘ Byte.blanked = Byte.blanked := funext Byte.blanked_blanked
    rw [List.map_append, ih, List.map_map, hmap, ← List.map_append, List.take_append_drop]

theorem length_uncommented (ahead : List UInt8) : (uncommented ahead).length = ahead.length := by
  have hlength := congrArg List.length (map_blanked_uncommented ahead)
  rwa [List.length_map, List.length_map] at hlength

/-- The comments of a gap are overwritten one after the other. -/
theorem Fills.uncommented_append {gap after : List UInt8} (h : Fills gap after) :
    uncommented (gap ++ after) = uncommented gap ++ uncommented after ∧
      ∀ b ∈ uncommented gap, b ∈ whiteSpace := by
  have hcomment {comment : List UInt8} : ∀ b ∈ comment.map Byte.blanked, b ∈ whiteSpace := by
    intro b hb
    obtain ⟨c, -, rfl⟩ := List.mem_map.1 hb
    exact Byte.blanked_mem_whiteSpace c
  induction h with
  | nil =>
    have hnil : uncommented [] = [] := by rw [uncommented]
    rw [hnil]
    exact ⟨rfl, nofun⟩
  | blank hblank _ ih =>
    rw [List.cons_append, uncommented_cons_of_blank hblank, uncommented_cons_of_blank hblank, ih.1]
    exact ⟨rfl, List.forall_mem_cons.2 ⟨hblank, ih.2⟩⟩
  | line hline _ ih =>
    rw [List.append_assoc, uncommented_line_append hline, uncommented_line_append hline.of_append,
      ih.1, List.append_assoc]
    exact ⟨rfl, List.forall_mem_append.2 ⟨hcomment, ih.2⟩⟩
  | block hblock _ ih =>
    rw [List.append_assoc, uncommented_block_append hblock, uncommented_block_append hblock, ih.1,
      List.append_assoc]
    exact ⟨rfl, List.forall_mem_append.2 ⟨hcomment, ih.2⟩⟩

/-- What a scan skips becomes white space, and nothing behind it is overwritten. -/
theorem uncommented_of_extent_eq_upTo {ahead : List UInt8} {length : Nat}
    (h : extent ahead = .upTo length) :
    ∃ blanks, uncommented ahead = blanks ++ ahead.drop length ∧ blanks.length = length ∧
      ∀ b ∈ blanks, b ∈ whiteSpace := by
  obtain ⟨gap, rest, rfl, hgap, hclear | ⟨offset, hopen⟩⟩ := exists_fills ahead
  · rw [hgap.extent_append, extent_of_clear hclear] at h
    obtain rfl : gap.length = length := Extent.upTo.inj h
    obtain ⟨happend, hblanks⟩ := hgap.uncommented_append
    refine ⟨uncommented gap, ?_, length_uncommented gap, hblanks⟩
    rw [happend, uncommented_of_clear hclear, List.drop_left]
  · rw [hgap.extent_append, extent_of_comment_unclosed hopen] at h
    cases h

/-- Overwriting puts nothing but white space in front of anything. -/
theorem mem_head?_uncommented_append {gap after : List UInt8} (h : Fills gap after)
    {rest : List UInt8} {b : UInt8} (hb : b ∈ (uncommented gap ++ rest).head?) :
    b ∈ whiteSpace ∨ b ∈ (gap ++ rest).head? := by
  cases gap with
  | nil =>
    rw [uncommented] at hb
    exact .inr hb
  | cons c gap =>
    have hne : uncommented (c :: gap) ≠ [] := by
      apply List.ne_nil_of_length_pos
      rw [length_uncommented]
      exact Nat.succ_pos _
    rw [List.head?_append_of_ne_nil _ hne] at hb
    exact .inl (h.uncommented_append.2 b (List.mem_of_mem_head? hb))

/-- White space is a gap in front of anything. -/
theorem fills_of_whiteSpace {gap : List UInt8} (h : ∀ b ∈ gap, b ∈ whiteSpace)
    (after : List UInt8) : Fills gap after := by
  induction gap with
  | nil => exact .nil
  | cons b gap ih =>
    obtain ⟨hb, hgap⟩ := List.forall_mem_cons.1 h
    exact .blank hb (ih hgap)

end Gap

namespace Layout

/-- The layout with its comments overwritten. -/
def uncommented : Layout → Layout
  | last gap => last (Gap.uncommented gap)
  | cons gap text l behind => cons (Gap.uncommented gap) text l behind.uncommented

theorem map_blanked_uncommented (layout : Layout) :
    layout.uncommented.bytes.map Byte.blanked = layout.bytes.map Byte.blanked := by
  induction layout with
  | last gap => exact Gap.map_blanked_uncommented gap
  | cons gap text l behind ih =>
    simp only [uncommented, bytes, List.map_append, Gap.map_blanked_uncommented, ih]

private theorem mem_head?_uncommented_append {layout : Layout} {after : List UInt8}
    (h : layout.Fits after) {b : UInt8} (hb : b ∈ (layout.uncommented.bytes ++ after).head?) :
    b ∈ Gap.whiteSpace ∨ b ∈ (layout.bytes ++ after).head? := by
  cases h with
  | last hgap => exact Gap.mem_head?_uncommented_append hgap hb
  | cons hgap hspelled =>
    simp only [uncommented, bytes, List.append_assoc] at hb ⊢
    rcases Gap.mem_head?_uncommented_append hgap hb with hb | hb
    · exact .inl hb
    · right
      rwa [List.head?_append, List.head?_append_of_ne_nil _ hspelled.ne_nil] at hb ⊢

theorem Fits.uncommented {layout : Layout} {after : List UInt8} (h : layout.Fits after) :
    layout.uncommented.Fits after := by
  induction h with
  | last hgap => exact .last (Gap.fills_of_whiteSpace hgap.uncommented_append.2 _)
  | @cons gap text l behind after hgap hspelled hstops hbehind ih =>
    refine .cons (Gap.fills_of_whiteSpace hgap.uncommented_append.2 _) hspelled ?_ ih
    intro b hb
    rcases mem_head?_uncommented_append hbehind hb with hb | hb
    · exact l.kind.continuedBy_of_mem_whiteSpace hb
    · exact hstops b hb

/-- The lexemes keep their places. -/
theorem tokensFrom_uncommented {source source' : List UInt8}
    (h : source'.map Byte.blanked = source.map Byte.blanked) (layout : Layout) (i : Nat) :
    layout.uncommented.tokensFrom source' i = layout.tokensFrom source i := by
  induction layout generalizing i with
  | last => rfl
  | cons gap text l behind ih =>
    rw [uncommented, tokensFrom, tokensFrom, Gap.length_uncommented,
      Position.ofIndex_of_map_blanked_eq h, ih]

theorem tokens_uncommented (layout : Layout) : layout.uncommented.tokens = layout.tokens :=
  layout.tokensFrom_uncommented layout.map_blanked_uncommented 0

theorem length_uncommented (layout : Layout) :
    layout.uncommented.bytes.length = layout.bytes.length := by
  have hlength := congrArg List.length layout.map_blanked_uncommented
  rwa [List.length_map, List.length_map] at hlength

end Layout

namespace Scan

/-- The bytes ahead, with every comment overwritten that is skipped on the way to the end or to a
failure. Each token is read behind one gap, and it is kept as it is. -/
def uncommented (s : Scan) : List UInt8 :=
  match h : s.readToken with
  | (.error _, _) => Gap.uncommented s.cursor.rest
  | (.ok token, s') =>
    if hk : token.isEnd = true then Gap.uncommented s.cursor.rest
    else
      have := length_rest_readToken_lt h (by simpa using hk)
      (Gap.uncommented s.cursor.rest).take (s.cursor.rest.length - s'.cursor.rest.length) ++
        uncommented s'
termination_by s.cursor.rest.length

theorem uncommented_of_ended {s : Scan} (h : s.Ended) :
    s.uncommented = Gap.uncommented s.cursor.rest := by
  rw [uncommented]
  split
  · rfl
  · next token s' hread => rw [dif_pos (h token s' hread)]

theorem uncommented_of_token {s s' : Scan} {token : Token} (h : s.readToken = (.ok token, s'))
    (hk : token.isEnd = false) :
    s.uncommented =
      (Gap.uncommented s.cursor.rest).take (s.cursor.rest.length - s'.cursor.rest.length) ++
        s'.uncommented := by
  rw [uncommented]
  split
  · next hread => simp [h] at hread
  · next hread =>
    obtain ⟨rfl, rfl⟩ : token = _ ∧ s' = _ := by simpa [h] using hread
    rw [dif_neg (by simp [hk])]

end Scan

namespace Layout

/-- A scan that is at an end behind a layout skips the comments of the layout. -/
theorem Fits.uncommented_atIndex {layout : Layout} {bytes after : List UInt8} {i : Nat}
    {name : Option String} (h : layout.Fits after) (hi : i ≤ bytes.length)
    (hdrop : bytes.drop i = layout.bytes ++ after) (hclear : Gap.Clear after)
    (hended : ∀ j gap, j ≤ bytes.length → bytes.drop j = gap ++ after → Gap.Fills gap after →
      (Scan.atIndex bytes name j).Ended) :
    (Scan.atIndex bytes name i).uncommented = layout.uncommented.bytes ++ after := by
  induction h generalizing i with
  | @last gap after hgap =>
    rw [Scan.uncommented_of_ended (hended i gap hi hdrop hgap), Scan.rest_atIndex, hdrop,
      Layout.bytes, hgap.uncommented_append.1, Gap.uncommented_of_clear hclear]
    rfl
  | @cons gap text l behind after hgap hspelled hstops _ ih =>
    obtain ⟨hsplit, hbehind, hle⟩ := drop_of_cons hi hdrop
    have hstep := Scan.readToken_of_spelled hi hsplit hgap hspelled hstops name
    have hkind := isEnd_eq_false_of_spelled hspelled (.ofIndex bytes (i + gap.length))
    have hskipped : Gap.uncommented (gap ++ (text ++ (behind.bytes ++ after))) =
        Gap.uncommented gap ++ text ++ (behind.bytes ++ after) := by
      rw [hgap.uncommented_append.1, Gap.uncommented_of_clear (hspelled.clear hstops),
        List.append_assoc]
    have htaken : (gap ++ (text ++ (behind.bytes ++ after))).length -
        (behind.bytes ++ after).length = (Gap.uncommented gap ++ text).length := by
      simp only [List.length_append, Gap.length_uncommented]
      omega
    rw [Scan.uncommented_of_token hstep hkind, Scan.rest_atIndex, Scan.rest_atIndex, hsplit,
      hbehind, hskipped, htaken, List.take_left, ih hle hbehind hclear hended]
    simp only [Layout.uncommented, Layout.bytes, List.append_assoc]

theorem Fits.uncommented_ofBytes {layout : Layout} (h : layout.Fits []) (name : Option String) :
    (Scan.ofBytes layout.bytes name).uncommented = layout.uncommented.bytes := by
  have hended (j : Nat) (gap : List UInt8) (hj : j ≤ layout.bytes.length)
      (hdrop : layout.bytes.drop j = gap ++ []) (hgap : Gap.Fills gap []) :
      (Scan.atIndex layout.bytes name j).Ended := by
    rw [List.append_nil] at hdrop
    exact Scan.ended_of_isEnd (Scan.readToken_of_end hj hdrop hgap name) rfl
  have hbytes := h.uncommented_atIndex (Nat.zero_le _) (List.append_nil _).symm Gap.clear_nil hended
  rwa [Scan.atIndex_zero, List.append_nil] at hbytes

end Layout

namespace Rejected
variable {bytes item after : List UInt8} {layout : Layout} {fault : Fault} {offset : Nat}

/-- From the offence on nothing is overwritten. -/
theorem uncommented_ofBytes (h : Rejected bytes layout item after fault offset)
    (hclosed : fault ≠ .unclosedComment) (name : Option String) :
    (Scan.ofBytes bytes name).uncommented = layout.uncommented.bytes ++ (item ++ after) := by
  have hclear : Gap.Clear (item ++ after) := by
    rcases h.offence.unclosed_or_next_eq with ⟨hfault, -⟩ | ⟨-, hclear, -⟩
    · exact absurd hfault hclosed
    · exact hclear
  have hended (j : Nat) (gap : List UInt8) (hj : j ≤ bytes.length)
      (hdrop : bytes.drop j = gap ++ (item ++ after)) (hgap : Gap.Fills gap (item ++ after)) :
      (Scan.atIndex bytes name j).Ended := by
    obtain ⟨s, herror⟩ := Scan.readToken_of_offence hj hdrop hgap h.offence name
    exact Scan.ended_of_error herror
  exact h.fits.uncommented_atIndex (Nat.zero_le _) h.bytes_eq hclear hended

theorem uncommented (h : Rejected bytes layout item after fault offset) :
    Rejected (layout.uncommented.bytes ++ (item ++ after)) layout.uncommented item after fault
      offset :=
  ⟨rfl, h.fits.uncommented, h.offence⟩

/-- The fault keeps its place. -/
theorem ofIndex_uncommented (h : Rejected bytes layout item after fault offset) :
    Position.ofIndex (layout.uncommented.bytes ++ (item ++ after))
        (layout.uncommented.bytes.length + offset) =
      .ofIndex bytes (layout.bytes.length + offset) := by
  rw [layout.length_uncommented]
  apply Position.ofIndex_of_map_blanked_eq
  rw [List.map_append, layout.map_blanked_uncommented, ← List.map_append, ← h.bytes_eq]

end Rejected

namespace Scan

/-- If no comment is left open, comments are white space: overwriting those that are skipped changes
no token, neither the end nor a failure, and no place. -/
theorem run_uncommented {bytes : List UInt8} {name : Option String}
    (hclosed : ∀ tokens failure, (ofBytes bytes name).Run tokens (.error failure) →
      failure.fault ≠ .unclosedComment) :
    (∃ tokens outcome, (ofBytes bytes name).Run tokens outcome) ∧
      ∀ tokens outcome, (ofBytes (ofBytes bytes name).uncommented name).Run tokens outcome ↔
        (ofBytes bytes name).Run tokens outcome := by
  obtain ⟨tokens, outcome, hrun⟩ := exists_run bytes name
  have hsame : (ofBytes (ofBytes bytes name).uncommented name).Run tokens outcome := by
    rcases hrun.fits_or_rejected with
      ⟨layout, rfl, hfits, rfl, rfl⟩ | ⟨layout, item, after, fault, offset, hrejected, rfl, rfl⟩
    · have hrun' := hfits.uncommented.run name
      rwa [layout.tokens_uncommented, layout.length_uncommented,
        Position.ofIndex_of_map_blanked_eq layout.map_blanked_uncommented,
        ← hfits.uncommented_ofBytes name] at hrun'
    · have hrun' := hrejected.uncommented.run name
      rwa [layout.tokens_uncommented, hrejected.ofIndex_uncommented,
        ← hrejected.uncommented_ofBytes (hclosed _ _ hrun) name] at hrun'
  -- A source has one run, so that one run in common is enough.
  refine ⟨⟨tokens, outcome, hrun⟩, ?_⟩
  intro tokens' outcome'
  constructor
  · intro h
    obtain ⟨rfl, rfl⟩ := h.unique hsame
    exact hrun
  · intro h
    obtain ⟨rfl, rfl⟩ := h.unique hrun
    exact hsame

/-- A comment over a line keeps two symbols apart that would be one without it, and so do the blanks
and the line feed in its place. -/
theorem run_uncommented_between_symbols :
    let bytes := Text.utf8 "=/-\n-/=//x"
    let bytes' := Text.utf8 "=  \n  =   "
    let tokens : List Token :=
      [⟨.symbol .assign, .none, ⟨1, 1⟩⟩, ⟨.symbol .assign, .none, ⟨2, 3⟩⟩]
    let last : Token := ⟨.endOfFile, .none, ⟨2, 7⟩⟩
    (ofBytes bytes none).uncommented = bytes' ∧ (ofBytes bytes none).Run tokens (.ok last) ∧
      (ofBytes bytes' none).Run tokens (.ok last) := by
  intro bytes bytes' tokens last
  have hassign : Lexeme.Spelled ⟨.symbol .assign, .none⟩ (Text.utf8 "=") := .symbol (by decide) rfl
  have hinside : Comment.Inside [Byte.lineFeed] Comment.closing :=
    .other (by decide) (by decide) .nil
  have hblock : Comment.Block (Text.utf8 "/-\n-/") := ⟨_, hinside, rfl⟩
  have hline : Comment.Line (Text.utf8 "//x") [] := ⟨[0x78], by decide, rfl⟩
  have hfits : Layout.Fits (.cons [] (Text.utf8 "=") ⟨.symbol .assign, .none⟩
      (.cons (Text.utf8 "/-\n-/") (Text.utf8 "=") ⟨.symbol .assign, .none⟩
        (.last (Text.utf8 "//x")))) [] :=
    .cons .nil hassign (by decide) (.cons (Gap.fills_of_comment (.inr hblock)) hassign (by decide)
      (.last (Gap.fills_of_comment (.inl hline))))
  have hrun : (ofBytes (Text.utf8 "=/-\n-/=//x") none).Run
      [⟨.symbol .assign, .none, ⟨1, 1⟩⟩, ⟨.symbol .assign, .none, ⟨2, 3⟩⟩]
      (.ok ⟨.endOfFile, .none, ⟨2, 7⟩⟩) := hfits.run none
  have huncommented : (ofBytes bytes none).uncommented = bytes' := by decide +kernel
  have hclosed (tokens : List Token) (failure : Failure)
      (h : (ofBytes bytes none).Run tokens (.error failure)) :
      failure.fault ≠ .unclosedComment := by
    obtain ⟨-, houtcome⟩ := h.unique hrun
    cases houtcome
  obtain ⟨-, hsame⟩ := run_uncommented hclosed
  rw [huncommented] at hsame
  exact ⟨huncommented, hrun, (hsame _ _).2 hrun⟩

end Scan

end Lexis
