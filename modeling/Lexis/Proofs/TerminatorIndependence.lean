import Lexis.Report
import Lexis.Proofs.LineTerminators
import Lexis.Proofs.Rejection

/-! Line endings as the scan sees them.
The grammar of sources does not tell a line feed from any other ending. So a source is split into
gaps, lexemes and an offence at the same places once all its endings are line feeds, and the places
have kept their lines and columns. -/
namespace Lexis
open Text

private theorem head?_nil_ne : ([] : List UInt8).head? ≠ some LineEndings.lineFeed := nofun

/-- What ends a run still ends it, if a line feed would. -/
theorem MaximalRun.unified {p : UInt8 → Bool} {run after : List UInt8} (h : MaximalRun p run after)
    (hp : p Byte.lineFeed = false) : MaximalRun p run (unified after) := by
  refine ⟨h.all, fun b hb => ?_⟩
  rcases mem_head?_unified hb with rfl | hb
  · exact hp
  · exact h.stops b hb

namespace Comment

private theorem unbroken_opening : Unbroken opening := by decide

private theorem unbroken_closing : Unbroken closing := by decide

private theorem unified_comment_append (text rest : List UInt8) :
    unified (opening ++ text ++ closing ++ rest) =
      opening ++ unified text ++ closing ++ unified rest := by
  have hseam : (closing ++ rest).head? ≠ some LineEndings.lineFeed := nofun
  simp only [List.append_assoc]
  rw [unified_append_of_unbroken unbroken_opening, unified_append hseam,
    unified_append_of_unbroken unbroken_closing]

private theorem mark_prefix_of_unified {x y b : UInt8} {rest : List UInt8} (hy : y ≠ Byte.lineFeed)
    (h : [x, y] <+: b :: Text.unified rest) : [x, y] <+: b :: rest := by
  rw [mark_prefix_iff] at h ⊢
  refine ⟨h.1, ?_⟩
  rcases mem_head?_unified h.2 with hlf | hhead
  · exact absurd hlf hy
  · exact hhead

private theorem not_mark_prefix_lineFeed {x y : UInt8} (hx : x ≠ Byte.lineFeed)
    (rest : List UInt8) : ¬ [x, y] <+: LineEndings.lineFeed :: rest :=
  fun h => hx (mark_prefix_iff.1 h).1

theorem Inside.unified {text after : List UInt8} (h : Inside text after)
    (hafter : after.head? ≠ some Byte.lineFeed) : Inside (unified text) (unified after) := by
  induction h with
  | nil => exact .nil
  | @comment inner text after _ _ ihinner ihtext =>
    have hinner := ihinner nofun
    rw [unified_of_unbroken unbroken_closing] at hinner
    rw [unified_comment_append]
    exact .comment hinner (ihtext hafter)
  | @other b text after hopen hclose _ ih =>
    have hrest : Text.unified (text ++ after) = Text.unified text ++ Text.unified after :=
      Text.unified_append hafter text
    rcases unified_cons b text with hpair | hlone | hkept
    · rw [hpair]
      exact ih hafter
    · rw [hlone]
      refine .other ?_ ?_ (ih hafter)
      · exact not_mark_prefix_lineFeed (by decide) _
      · exact not_mark_prefix_lineFeed (by decide) _
    · rw [hkept]
      refine .other ?_ ?_ (ih hafter)
      · rw [← hrest]
        exact fun h => hopen (mark_prefix_of_unified (by decide) h)
      · rw [← hrest]
        exact fun h => hclose (mark_prefix_of_unified (by decide) h)

theorem Block.unified_append {comment : List UInt8} (h : Block comment) (rest : List UInt8) :
    Block (unified comment) ∧ unified (comment ++ rest) = unified comment ++ unified rest := by
  obtain ⟨text, htext, rfl⟩ := h
  have hmarks := unified_comment_append text []
  rw [List.append_nil, unified_nil, List.append_nil] at hmarks
  have hinside := htext.unified nofun
  rw [unified_of_unbroken unbroken_closing] at hinside
  exact ⟨⟨_, hinside, hmarks⟩, by rw [unified_comment_append, hmarks]⟩

theorem Line.unified {comment after : List UInt8} (h : Line comment after) :
    Line comment (unified after) := by
  obtain ⟨text, htext, rfl⟩ := h
  exact ⟨text, htext.unified rfl, rfl⟩

/-- The innermost opening mark is still the innermost, and the bytes before it are what they were
but for their endings. -/
theorem Unclosed.unified {bytes : List UInt8} {offset : Nat} (h : Unclosed bytes offset) :
    ∃ front back, bytes = front ++ back ∧ front.length = offset ∧
      back.head? ≠ some Byte.lineFeed ∧ Unclosed (unified bytes) (unified front).length := by
  induction h with
  | @innermost text htext =>
    refine ⟨[], opening ++ text, rfl, rfl, nofun, ?_⟩
    rw [unified_append_of_unbroken unbroken_opening]
    exact .innermost (htext.unified nofun)
  | @outer text rest offset htext hrest ih =>
    obtain ⟨front, back, rfl, rfl, hback, hunclosed⟩ := ih
    have hseam : (front ++ back).head? ≠ some Byte.lineFeed := by
      rw [hrest.head?_eq]
      exact nofun
    have hfront : front.head? ≠ some Byte.lineFeed := fun hlf => hseam (by
      rw [List.head?_append, hlf]
      rfl)
    have hmarks {rest : List UInt8} (hrest : rest.head? ≠ some Byte.lineFeed) :
        Text.unified (opening ++ text ++ rest) =
          opening ++ Text.unified text ++ Text.unified rest := by
      rw [List.append_assoc, unified_append_of_unbroken unbroken_opening, unified_append hrest,
        List.append_assoc]
    have hinside := htext.unified nofun
    rw [unified_of_unbroken unbroken_opening] at hinside
    refine ⟨opening ++ text ++ front, back, (List.append_assoc ..).symm, ?_, hback, ?_⟩
    · simp only [List.length_append, opening, List.length_cons, List.length_nil]
    · rw [hmarks hseam, hmarks hfront, List.length_append, List.length_append]
      exact .outer hinside hunclosed

end Comment

/-- A gap is one whatever its endings are, and what follows it is not touched. -/
theorem Gap.Fills.unified {gap after : List UInt8} (h : Gap.Fills gap after)
    (hafter : after.head? ≠ some Byte.lineFeed) : Gap.Fills (unified gap) (unified after) := by
  induction h with
  | nil => exact .nil
  | @blank b gap after hblank _ ih =>
    rcases unified_cons b gap with hpair | hlone | hkept
    · rw [hpair]
      exact ih hafter
    · rw [hlone]
      exact .blank (by decide) (ih hafter)
    · rw [hkept]
      exact .blank hblank (ih hafter)
  | line hline _ ih =>
    rw [unified_append_of_unbroken hline.isLineBreak_eq_false]
    have hcomment := hline.unified
    rw [Text.unified_append hafter] at hcomment
    exact .line hcomment (ih hafter)
  | block hblock _ ih =>
    obtain ⟨hcomment, happend⟩ := hblock.unified_append _
    rw [happend]
    exact .block hcomment (ih hafter)

private theorem unbroken_of_not_mem_whiteSpace {text : List UInt8}
    (h : ∀ b ∈ text, b ∉ Gap.whiteSpace) : Unbroken text :=
  fun b hb => Gap.isLineBreak_of_not_mem_whiteSpace (h b hb)

/-- What does not continue a lexeme still does not. -/
theorem Lexeme.Stops.unified {l : Lexeme} {after : List UInt8} (h : l.Stops after) :
    l.Stops (unified after) := by
  intro b hb
  rcases mem_head?_unified hb with rfl | hb
  · exact l.kind.continuedBy_of_mem_whiteSpace (by decide)
  · exact h b hb

namespace Offence
variable {item after : List UInt8} {fault : Fault} {offset : Nat}

private theorem unbroken_or_unclosed (h : Offence item after fault offset) :
    (Unbroken item ∧ offset = 0 ∧ Offence item (Text.unified after) fault 0) ∨
      (after = [] ∧ fault = .unclosedComment ∧ Comment.Unclosed item offset) := by
  have hclass {p : UInt8 → Bool} (hp : Gap.whiteSpace.any p = false)
      (hrun : MaximalRun p item after) : Unbroken item :=
    unbroken_of_not_mem_whiteSpace fun b hb =>
      Gap.not_mem_whiteSpace_of_class hp (hrun.all b hb)
  cases h with
  | illegal hblank hstart hshown =>
    have hunbroken := unbroken_of_not_mem_whiteSpace (List.forall_mem_singleton.2 hblank)
    exact .inl ⟨hunbroken, rfl, .illegal hblank hstart hshown⟩
  | long hword hrun hlong =>
    have hrun' := hrun.unified (by decide)
    exact .inl ⟨hclass (by decide) hrun, rfl, .long hword hrun' hlong⟩
  | large hne hrun hlarge =>
    have hrun' := hrun.unified (by decide)
    exact .inl ⟨hclass (by decide) hrun, rfl, .large hne hrun' hlarge⟩
  | unclosed hopen => exact .inr ⟨rfl, rfl, hopen⟩

theorem unified_append (h : Offence item after fault offset) :
    Text.unified (item ++ after) = Text.unified item ++ Text.unified after := by
  rcases h.unbroken_or_unclosed with ⟨hunbroken, -, -⟩ | ⟨rfl, -, -⟩
  · rw [unified_append_of_unbroken hunbroken, unified_of_unbroken hunbroken]
  · exact Text.unified_append head?_nil_ne item

theorem head?_ne_lineFeed (h : Offence item after fault offset) :
    (item ++ after).head? ≠ some Byte.lineFeed :=
  fun hlf => h.head_not_mem_whiteSpace _ hlf (by decide)

/-- An offence is one whatever its endings are, and its fault is placed at the same byte. -/
theorem unified (h : Offence item after fault offset) :
    ∃ front back, item = front ++ back ∧ front.length = offset ∧
      (back ++ after).head? ≠ some Byte.lineFeed ∧
      Offence (Text.unified item) (Text.unified after) fault (Text.unified front).length := by
  rcases h.unbroken_or_unclosed with ⟨hunbroken, rfl, hoffence⟩ | ⟨rfl, rfl, hopen⟩
  · rw [unified_of_unbroken hunbroken]
    exact ⟨[], item, rfl, rfl, h.head?_ne_lineFeed, hoffence⟩
  · obtain ⟨front, back, hitem, hoffset, hback, hunified⟩ := hopen.unified
    refine ⟨front, back, hitem, hoffset, ?_, .unclosed hunified⟩
    rwa [List.append_nil]

end Offence

namespace Layout

def unified : Layout → Layout
  | last gap => last (Text.unified gap)
  | cons gap text l behind => cons (Text.unified gap) text l behind.unified

private theorem head?_append_ne_lineFeed {l : Lexeme} {text : List UInt8} (h : l.Spelled text)
    (rest : List UInt8) : (text ++ rest).head? ≠ some Byte.lineFeed := by
  rw [List.head?_append_of_ne_nil text h.ne_nil]
  exact fun hlf => h.not_mem_whiteSpace (List.mem_of_mem_head? hlf) (by decide)

private theorem unified_gap_append {l : Lexeme} {text : List UInt8} (h : l.Spelled text)
    (gap rest : List UInt8) :
    Text.unified (gap ++ (text ++ rest)) = Text.unified gap ++ (text ++ Text.unified rest) := by
  have hunbroken := unbroken_of_not_mem_whiteSpace fun b hb => h.not_mem_whiteSpace hb
  have hseam := head?_append_ne_lineFeed h rest
  rw [← unified_append_of_unbroken hunbroken]
  exact Text.unified_append hseam gap

theorem Fits.bytes_unified {layout : Layout} {after : List UInt8} (h : layout.Fits after) :
    layout.unified.bytes = Text.unified layout.bytes := by
  induction h with
  | last => rfl
  | cons _ hspelled _ _ ih => rw [unified, bytes, bytes, unified_gap_append hspelled, ih]

theorem Fits.unified {layout : Layout} {after : List UInt8} (h : layout.Fits after)
    (hafter : after.head? ≠ some Byte.lineFeed) : layout.unified.Fits (Text.unified after) := by
  induction h with
  | last hgap => exact .last (hgap.unified hafter)
  | @cons gap text l behind after hgap hspelled hstops hbehind ih =>
    have hgap' := hgap.unified (head?_append_ne_lineFeed hspelled _)
    have htext := unified_gap_append hspelled [] (behind.bytes ++ after)
    have hrest : Text.unified (behind.bytes ++ after) =
        behind.unified.bytes ++ Text.unified after := by
      rw [unified_append hafter, hbehind.bytes_unified]
    have hstops' := hstops.unified
    rw [List.nil_append, unified_nil, List.nil_append, hrest] at htext
    rw [htext] at hgap'
    rw [hrest] at hstops'
    exact .cons hgap' hspelled hstops' (ih hafter)

/-- The lexemes stay at their places. -/
theorem Fits.tokensFrom_unified {layout : Layout} {source front after rest : List UInt8}
    (h : layout.Fits after) (hsource : source = front ++ (layout.bytes ++ rest))
    (hfront : ∀ rest, Text.unified (front ++ rest) = Text.unified front ++ Text.unified rest) :
    layout.unified.tokensFrom (Text.unified source) (Text.unified front).length =
      layout.tokensFrom source front.length := by
  induction h generalizing front with
  | last => rfl
  | @cons gap text l behind after _ hspelled _ _ ih =>
    have hgap : source = (front ++ gap) ++ (text ++ (behind.bytes ++ rest)) := by
      simp only [hsource, bytes, List.append_assoc]
    have htext : source = (front ++ gap ++ text) ++ (behind.bytes ++ rest) := by
      simp only [hgap, List.append_assoc]
    have hplace := Position.ofIndex_unified
      (head?_append_ne_lineFeed hspelled (behind.bytes ++ rest)) (front ++ gap)
    rw [← hgap, hfront, List.length_append, List.length_append] at hplace
    -- The seam behind the lexeme is no more divided than the one before its gap.
    have hseam (rest : List UInt8) : Text.unified (front ++ gap ++ text ++ rest) =
        Text.unified front ++ Text.unified gap ++ text ++ Text.unified rest := by
      simp only [List.append_assoc, hfront, unified_gap_append hspelled]
    have hwhole := hseam []
    rw [List.append_nil, unified_nil, List.append_nil] at hwhole
    have hbehind := ih htext fun rest => by rw [hseam, hwhole]
    rw [hwhole] at hbehind
    simp only [List.length_append] at hbehind
    rw [Layout.unified, tokensFrom, tokensFrom, hplace, hbehind]

theorem Fits.tokens_unified {layout : Layout} {after : List UInt8} (h : layout.Fits after) :
    layout.unified.tokens = layout.tokens := by
  have hsource : layout.bytes = [] ++ (layout.bytes ++ []) := (List.append_nil _).symm
  have htokens := h.tokensFrom_unified hsource fun _ => rfl
  rwa [← h.bytes_unified] at htokens

end Layout

/-- A source keeps its fault, at its place. -/
theorem Rejected.unified {bytes item after : List UInt8} {layout : Layout} {fault : Fault}
    {offset : Nat} (h : Rejected bytes layout item after fault offset) :
    ∃ offset', Rejected (Text.unified bytes) layout.unified (Text.unified item)
        (Text.unified after) fault offset' ∧
      Position.ofIndex (Text.unified bytes) (layout.unified.bytes.length + offset') =
        .ofIndex bytes (layout.bytes.length + offset) := by
  have hhead := h.offence.head?_ne_lineFeed
  have hitem := h.offence.unified_append
  have hfits := h.fits.unified hhead
  have hbytes : Text.unified bytes =
      layout.unified.bytes ++ (Text.unified item ++ Text.unified after) := by
    rw [h.bytes_eq, Text.unified_append hhead, hitem, h.fits.bytes_unified]
  rw [hitem] at hfits
  obtain ⟨front, back, rfl, rfl, hback, hoffence⟩ := h.offence.unified
  refine ⟨(Text.unified front).length, ⟨hbytes, hfits, hoffence⟩, ?_⟩
  have hfront : front.head? ≠ some Byte.lineFeed := fun hlf => hhead (by
    rw [List.append_assoc, List.head?_append, hlf]
    rfl)
  have hplace := Position.ofIndex_unified hback (layout.bytes ++ front)
  have hunified : Text.unified (layout.bytes ++ front) =
      layout.unified.bytes ++ Text.unified front := by
    rw [Text.unified_append hfront, h.fits.bytes_unified]
  have hsplit : layout.bytes ++ front ++ (back ++ after) = bytes := by
    simp only [h.bytes_eq, List.append_assoc]
  rwa [hunified, hsplit, List.length_append, List.length_append] at hplace

namespace Scan

/-- A run does not depend on how lines end. -/
theorem Run.unified {bytes : List UInt8} {name : Option String} {tokens : List Token}
    {outcome : Except Failure Token} (h : (ofBytes bytes name).Run tokens outcome) :
    (ofBytes (Text.unified bytes) name).Run tokens outcome := by
  rcases h.fits_or_rejected with
    ⟨layout, rfl, hfits, rfl, rfl⟩ | ⟨layout, item, after, fault, offset, hrejected, rfl, rfl⟩
  · have hend := Position.ofIndex_unified head?_nil_ne layout.bytes
    have hrun := (hfits.unified nofun).run name
    rw [List.append_nil] at hend
    rwa [hfits.tokens_unified, hfits.bytes_unified, hend] at hrun
  · obtain ⟨offset', hrejected', hplace⟩ := hrejected.unified
    have hrun := hrejected'.run name
    rwa [hrejected.fits.tokens_unified, hplace] at hrun

theorem tokens_unified (bytes : List UInt8) (name : Option String) :
    (ofBytes (Text.unified bytes) name).tokens = (ofBytes bytes name).tokens := by
  obtain ⟨tokens, outcome, hrun⟩ := exists_run bytes name
  rw [hrun.tokens_eq, hrun.unified.tokens_eq]

end Scan

/-- Nothing that is said about a text depends on how its lines end: not its tokens or their places,
nor its failure, nor what is shown of it in a report. -/
theorem tokenize_reterminated {content content' : String}
    (h : Reterminated content.toList content'.toList) (name : Option String) :
    tokenize content' name = tokenize content name ∧
      (∀ number, lineOf? content' number = lineOf? content number) ∧
      ∀ colour failure, Report.ofFailure colour failure (some content') =
        Report.ofFailure colour failure (some content) := by
  have hline (number : UInt32) : lineOf? content' number = lineOf? content number :=
    (h.lineOf?_eq number).symm
  refine ⟨?_, hline, ?_⟩
  · rw [tokenize, tokenize, utf8_eq_encode, utf8_eq_encode, ← h.encode.unified_eq]
    exact (Scan.tokens_unified _ name).symm
  · intro colour failure
    have hshown : Report.failureLine? failure (some content') =
        Report.failureLine? failure (some content) := by
      cases hplace : failure.position with
      | none =>
        simp only [Report.failureLine?, hplace]
        rfl
      | some p =>
        simp only [Report.failureLine?, hplace, Option.bind_eq_bind, Option.bind_some, hline]
    rw [Report.ofFailure, Report.ofFailure, Report.shown, Report.shown, hshown]

/-- A line feed in a comment is written as a carriage return and the one behind it as both. The
quote in the third line is still reported there. -/
theorem tokenize_reterminated_comment :
    let content := "x/-\n-/\n'"
    let content' := "x/-\r-/\r\n'"
    let failure : Failure := ⟨.illegalCharacter '\'' 0x27, some ⟨3, 1⟩, Scan.defaultSource⟩
    Reterminated content.toList content'.toList ∧
      tokenize content none = .error failure ∧ tokenize content' none = .error failure ∧
      lineOf? content 3 = some "'" ∧ lineOf? content' 3 = some "'" ∧
      Report.ofFailure false failure (some content') =
        ["shell: 3:1 Error: Illegal character ''' (ASCII #39) found\n",
          "  |\n", "3 | '\n", "  | ^\n"] := by
  intro content content' failure
  have hlast : Reterminated "'".toList "'".toList := .keep rfl .nil
  have hsecond : Reterminated "-/\n'".toList "-/\r\n'".toList :=
    .keep rfl (.keep rfl (.ending .both hlast))
  have hlone : IsEnding [LineEndings.carriageReturn] "-/\r\n'".toList :=
    .carriageReturn (by decide)
  have hfirst : Reterminated "\n-/\n'".toList "\r-/\r\n'".toList := .ending hlone hsecond
  have h : Reterminated "x/-\n-/\n'".toList "x/-\r-/\r\n'".toList :=
    .keep rfl (.keep rfl (.keep rfl hfirst))
  have hword : Lexeme.Spelled ⟨.identifier, .word "x"⟩ (Text.utf8 "x") :=
    .identifier (by decide) (by decide) (by decide)
  have hcomment : Comment.Inside (Text.utf8 "\n") Comment.closing :=
    .other (by decide) (by decide) .nil
  have hgap : Gap.Fills (Text.utf8 "/-\n-/" ++ Text.utf8 "\n") (Text.utf8 "'") :=
    .block ⟨_, hcomment, rfl⟩ (.blank (by decide) .nil)
  obtain ⟨hblank, hstart⟩ := not_startsLexeme (b := 0x27) (.inr (.inl rfl))
  have hrejected : Rejected (Text.utf8 content)
      (.cons [] (Text.utf8 "x") ⟨.identifier, .word "x"⟩
        (.last (Text.utf8 "/-\n-/" ++ Text.utf8 "\n")))
      (Text.utf8 "'") [] (.illegalCharacter '\'' 0x27) 0 :=
    ⟨by decide, .cons .nil hword (by decide) (.last hgap), .illegal hblank hstart rfl⟩
  have hplace : Position.ofIndex (Text.utf8 content) 7 = ⟨3, 1⟩ := by decide
  have htokens : tokenize content none = .error ⟨.illegalCharacter '\'' 0x27,
      some (.ofIndex (Text.utf8 content) 7), Scan.defaultSource⟩ :=
    (hrejected.run none).tokens_eq
  rw [hplace] at htokens
  have hthird : lineOf? content 3 = some "'" := by decide
  obtain ⟨hsame, hlines, hreports⟩ := tokenize_reterminated h none
  exact ⟨h, htokens, hsame.trans htokens, hthird, (hlines 3).trans hthird,
    (hreports false failure).trans (by decide)⟩

end Lexis
