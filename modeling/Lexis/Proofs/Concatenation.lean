import Lexis.Proofs.LineSplitting
import Lexis.Proofs.Rejection

/-! Texts in a row.
Behind a text that is read to its end and ends in a line feed, another text is read as it is read on
its own, only that it stands further down. Nothing reaches across the line feed, since no lexeme and
no comment ends in one, and a line starts anew behind it. -/
namespace Lexis

namespace Position

def down (lines : UInt32) (p : Position) : Position :=
  ⟨p.line + lines, p.column⟩

def linesPassed (bytes : List UInt8) : UInt32 :=
  (ofIndex bytes bytes.length).line - 1

private theorem past_down (lines : UInt32) (p : Position) (b : UInt8) (following : Option UInt8) :
    (p.down lines).past b following = (p.past b following).down lines := by
  cases hends : endsLine b following with
  | true =>
    rw [past_of_endsLine hends, past_of_endsLine hends, down, down, UInt32.add_assoc,
      UInt32.add_comm lines, ← UInt32.add_assoc]
  | false => rw [past_of_not_endsLine hends, past_of_not_endsLine hends, down, down]

private theorem ofIndex_of_lineFeed {front : List UInt8} (hlf : front.getLast? = some Byte.lineFeed)
    (back : List UInt8) :
    ofIndex (front ++ back) front.length = ⟨(ofIndex front front.length).line, 1⟩ := by
  obtain ⟨init, rfl⟩ := List.getLast?_eq_some_iff.1 hlf
  have hpast (back : List UInt8) : ofIndex (init ++ [Byte.lineFeed] ++ back) (init.length + 1) =
      ⟨(ofIndex (init ++ [Byte.lineFeed]) init.length).line + 1, 1⟩ := by
    have hb : (init ++ [Byte.lineFeed] ++ back)[init.length]? = some Byte.lineFeed := by simp
    rw [ofIndex_succ hb, ofIndex_append (by simp)]
    rfl
  have hnil := hpast []
  rw [List.append_nil] at hnil
  rw [List.length_append, List.length_singleton, hpast, hnil]

/-- Behind a line feed all places are further down by the lines before it. -/
theorem ofIndex_append_of_lineFeed {front back : List UInt8}
    (hlf : front.getLast? = some Byte.lineFeed) (hback : back ≠ []) {i : Nat}
    (hi : i ≤ back.length) :
    ofIndex (front ++ back) (front.length + i) = (ofIndex back i).down (linesPassed front) := by
  induction i with
  | zero =>
    rw [Nat.add_zero, ofIndex_of_lineFeed hlf, ofIndex_zero hback, first, down,
      linesPassed, UInt32.add_comm, UInt32.sub_add_cancel]
  | succ i ih =>
    have hb : back[i]? = some back[i] := List.getElem?_eq_getElem hi
    have hright (j : Nat) : (front ++ back)[front.length + j]? = back[j]? := by
      rw [List.getElem?_append_right (Nat.le_add_right ..), Nat.add_sub_cancel_left]
    rw [← Nat.add_assoc, ofIndex_succ ((hright i).trans hb), Nat.add_assoc, hright,
      ih (Nat.le_of_succ_le hi), past_down, ← ofIndex_succ hb]

end Position

def Token.down (lines : UInt32) (t : Token) : Token :=
  { t with position := t.position.down lines }

def Failure.down (lines : UInt32) (f : Failure) : Failure :=
  { f with position := f.position.map (Position.down lines) }

/-! What ends in a line feed. -/

private theorem mem_getLast?_of_append (front : List UInt8) {back : List UInt8}
    {P : UInt8 → Prop} (h : ∀ b ∈ (front ++ back).getLast?, P b) : ∀ b ∈ back.getLast?, P b := by
  intro b hb
  refine h b ?_
  rw [List.getLast?_append, Option.mem_def.1 hb]
  rfl

private theorem lineFeed_mem_of_getLast? {bytes : List UInt8} (hne : bytes ≠ [])
    (h : ∀ b ∈ bytes.getLast?, b = Byte.lineFeed) : Byte.lineFeed ∈ bytes := by
  have hlast := List.getLast?_eq_some_getLast hne
  rw [← h _ hlast]
  exact List.getLast_mem hne

private theorem Comment.Line.of_lineFeed {comment gap : List UInt8}
    (h : Comment.Line comment (gap ++ []))
    (hlf : ∀ b ∈ (comment ++ gap).getLast?, b = Byte.lineFeed) (after : List UInt8) :
    Comment.Line comment (gap ++ after) := by
  cases gap with
  | nil =>
    have hne : comment ≠ [] := by
      obtain ⟨text, -, rfl⟩ := h
      exact List.cons_ne_nil _ _
    rw [List.append_nil] at hlf
    exact absurd (h.isLineBreak_eq_false _ (lineFeed_mem_of_getLast? hne hlf)) (by decide)
  | cons b gap => exact h.congr rfl

/-- A gap that ends in a line feed is one whatever follows it. -/
theorem Gap.Fills.of_lineFeed {gap : List UInt8} (h : Gap.Fills gap [])
    (hlf : ∀ b ∈ gap.getLast?, b = Byte.lineFeed) (after : List UInt8) : Gap.Fills gap after := by
  generalize hnil : [] = rest at h
  induction h with
  | nil => exact .nil
  | @blank b _ _ hblank _ ih => exact .blank hblank (ih (mem_getLast?_of_append [b] hlf) hnil)
  | line hline _ ih =>
    subst hnil
    exact .line (hline.of_lineFeed hlf after) (ih (mem_getLast?_of_append _ hlf) rfl)
  | block hblock _ ih => exact .block hblock (ih (mem_getLast?_of_append _ hlf) hnil)

namespace Layout

private theorem Fits.of_mem_getLast? {layout : Layout} (h : layout.Fits [])
    (hlf : ∀ b ∈ layout.bytes.getLast?, b = Byte.lineFeed) (after : List UInt8) :
    layout.Fits after := by
  generalize hnil : [] = rest at h
  induction h with
  | last hgap =>
    subst hnil
    exact .last (hgap.of_lineFeed hlf after)
  | @cons gap text l behind _ hgap hspelled hstops _ ih =>
    subst hnil
    have htext := mem_getLast?_of_append gap hlf
    have hbehind := mem_getLast?_of_append text htext
    have hne : behind.bytes ≠ [] := by
      intro hnil
      rw [hnil, List.append_nil] at htext
      exact hspelled.not_mem_whiteSpace (lineFeed_mem_of_getLast? hspelled.ne_nil htext) (by decide)
    have hhead : (behind.bytes ++ []).head? = (behind.bytes ++ after).head? := by
      rw [List.head?_append_of_ne_nil _ hne, List.head?_append_of_ne_nil _ hne]
    refine .cons (hgap.congr ?_) hspelled ?_ (ih hbehind rfl)
    · rw [List.head?_append, hhead, ← List.head?_append]
    · rwa [Lexeme.Stops, ← hhead]

/-- A layout that ends in a line feed is one whatever follows it. -/
theorem Fits.of_lineFeed {layout : Layout} (h : layout.Fits [])
    (hlf : layout.bytes.getLast? = some Byte.lineFeed) (after : List UInt8) :
    layout.Fits after :=
  h.of_mem_getLast? (fun b hb => by simpa [hlf, eq_comm] using hb) after

/-- The lexemes of two layouts in a row are those of the first and those of the second. -/
theorem tokensFrom_append (front back : Layout) (source : List UInt8) (i : Nat) :
    (front.append back).tokensFrom source i =
      front.tokensFrom source i ++ back.tokensFrom source (i + front.bytes.length) := by
  induction front generalizing i with
  | last gap =>
    cases back with
    | last => rfl
    | cons =>
      simp only [append, tokensFrom, bytes, List.nil_append, List.length_append, Nat.add_assoc]
  | cons gap text l behind ih =>
    simp only [append, tokensFrom, bytes, ih, List.cons_append, List.length_append, Nat.add_assoc]

theorem tokensFrom_of_lineFeed {front back : List UInt8}
    (hlf : front.getLast? = some Byte.lineFeed) (hback : back ≠ []) {layout : Layout} {i : Nat}
    (hi : i + layout.bytes.length ≤ back.length) :
    layout.tokensFrom (front ++ back) (front.length + i) =
      (layout.tokensFrom back i).map (Token.down (Position.linesPassed front)) := by
  induction layout generalizing i with
  | last => rfl
  | cons gap text l behind ih =>
    simp only [bytes, List.length_append] at hi
    simp only [tokensFrom, List.map_cons, Token.down, Nat.add_assoc]
    rw [Position.ofIndex_append_of_lineFeed hlf hback (by omega), ih (by omega)]

theorem tokens_append_of_lineFeed {front back : Layout} {bytes rest : List UInt8}
    (h : front.Fits []) (hlf : front.bytes.getLast? = some Byte.lineFeed) (hback : back.Fits rest)
    (hbytes : bytes = back.bytes ++ rest) (hne : bytes ≠ []) :
    (front.append back).tokens =
      front.tokens ++ back.tokens.map (Token.down (Position.linesPassed front.bytes)) := by
  subst hbytes
  have hfits := (h.of_lineFeed hlf (back.bytes ++ rest)).append hback
  calc (front.append back).tokens
    _ = (front.append back).tokensFrom (front.bytes ++ (back.bytes ++ rest)) 0 := by
      rw [← List.append_assoc, ← bytes_append, hfits.tokensFrom_append (by simp), tokens]
    _ = front.tokensFrom (front.bytes ++ (back.bytes ++ rest)) 0 ++
        back.tokensFrom (front.bytes ++ (back.bytes ++ rest)) (front.bytes.length + 0) := by
      rw [tokensFrom_append, Nat.zero_add, Nat.add_zero]
    _ = front.tokens ++ (back.tokensFrom (back.bytes ++ rest) 0).map
        (Token.down (Position.linesPassed front.bytes)) := by
      rw [h.tokensFrom_append (by simp), tokens, tokensFrom_of_lineFeed hlf hne (by simp)]
    _ = front.tokens ++ back.tokens.map (Token.down (Position.linesPassed front.bytes)) := by
      rw [hback.tokensFrom_append (by simp), tokens, tokens]

/-- Every lexeme is placed at a byte of its layout. -/
theorem exists_ofIndex_of_mem_tokensFrom {layout : Layout} {source : List UInt8} {i : Nat}
    {token : Token} (h : token ∈ layout.tokensFrom source i) :
    ∃ j ≤ i + layout.bytes.length, token.position = .ofIndex source j := by
  induction layout generalizing i with
  | last => cases h
  | cons gap text l behind ih =>
    simp only [bytes, List.length_append]
    rcases List.mem_cons.1 h with rfl | h
    · exact ⟨i + gap.length, by omega, rfl⟩
    · obtain ⟨j, hj, hplace⟩ := ih h
      exact ⟨j, by omega, hplace⟩

end Layout

/-- A source keeps its fault behind a layout that ends in a line feed. -/
theorem Rejected.append {bytes item after : List UInt8} {front layout : Layout} {fault : Fault}
    {offset : Nat} (h : Rejected bytes layout item after fault offset) (hfront : front.Fits [])
    (hlf : front.bytes.getLast? = some Byte.lineFeed) :
    Rejected (front.bytes ++ bytes) (front.append layout) item after fault offset := by
  refine ⟨?_, (hfront.of_lineFeed hlf _).append h.fits, h.offence⟩
  rw [h.bytes_eq, Layout.bytes_append, List.append_assoc]

namespace Scan

/-- A source behind one that ends in a line feed is read as on its own, further down. -/
theorem Run.append {front back : List UInt8} {name : Option String} {tokens more : List Token}
    {last : Token} {outcome : Except Failure Token} (h : (ofBytes front name).Run tokens (.ok last))
    (hlf : front.getLast? = some Byte.lineFeed) (hback : back ≠ [])
    (hmore : (ofBytes back name).Run more outcome) :
    let lines := last.position.line - 1
    (ofBytes (front ++ back) name).Run (tokens ++ more.map (Token.down lines))
      ((outcome.map (Token.down lines)).mapError (Failure.down lines)) := by
  intro lines
  rcases h.fits_or_rejected with ⟨layout, rfl, hfits, rfl, hlast⟩ | ⟨_, _, _, _, _, -, -, hlast⟩
  · have hlines : Position.linesPassed layout.bytes = lines := by
      obtain rfl := Except.ok.inj hlast
      rfl
    rw [← hlines]
    rcases hmore.fits_or_rejected with
      ⟨layout', rfl, hfits', rfl, rfl⟩ | ⟨layout', item, after, fault, offset, hrejected, rfl, rfl⟩
    · have hbytes : layout'.bytes = layout'.bytes ++ [] := (List.append_nil _).symm
      have hrun := ((hfits.of_lineFeed hlf _).append hfits').run name
      rw [Layout.tokens_append_of_lineFeed hfits hlf hfits' hbytes hback, Layout.bytes_append,
        List.length_append, Position.ofIndex_append_of_lineFeed hlf hback (Nat.le_refl _)] at hrun
      exact hrun
    · have hrun := (hrejected.append hfits hlf).run name
      rw [Layout.tokens_append_of_lineFeed hfits hlf hrejected.fits hrejected.bytes_eq hback,
        Layout.bytes_append, List.length_append, Nat.add_assoc,
        Position.ofIndex_append_of_lineFeed hlf hback (Nat.le_of_lt hrejected.index_lt)] at hrun
      exact hrun
  · cases hlast

/-- All places in a run are in the source. -/
theorem Run.exists_ofIndex {bytes : List UInt8} {name : Option String} {tokens : List Token}
    {outcome : Except Failure Token} (h : (ofBytes bytes name).Run tokens outcome) :
    (∀ t ∈ tokens, ∃ i ≤ bytes.length, t.position = .ofIndex bytes i) ∧
      (∀ last, outcome = .ok last → ∃ i ≤ bytes.length, last.position = .ofIndex bytes i) ∧
      ∀ failure, outcome = .error failure →
        ∃ i ≤ bytes.length, failure.position = some (.ofIndex bytes i) := by
  rcases h.fits_or_rejected with
    ⟨layout, rfl, hfits, rfl, rfl⟩ | ⟨layout, item, after, fault, offset, hrejected, rfl, rfl⟩
  · refine ⟨?_, ?_, ?_⟩
    · intro t ht
      obtain ⟨i, hi, hplace⟩ := Layout.exists_ofIndex_of_mem_tokensFrom ht
      exact ⟨i, by omega, hplace⟩
    · rintro last hlast
      obtain rfl := Except.ok.inj hlast
      exact ⟨_, Nat.le_refl _, rfl⟩
    · intro failure hfailure
      cases hfailure
  · have hlt := hrejected.index_lt
    refine ⟨?_, ?_, ?_⟩
    · intro t ht
      rw [Layout.tokens, ← hrejected.fits.tokensFrom_append (by simp), ← hrejected.bytes_eq] at ht
      obtain ⟨i, hi, hplace⟩ := Layout.exists_ofIndex_of_mem_tokensFrom ht
      exact ⟨i, by omega, hplace⟩
    · intro last hlast
      cases hlast
    · rintro failure hfailure
      obtain rfl := Except.error.inj hfailure
      exact ⟨_, Nat.le_of_lt hlt, rfl⟩

end Scan

open Text

/-- The text `back` behind the text `front`, which is read to its end and ends in a line feed, is
read as on its own. The lines of `front` are added to all its places, and no sum is too large for a
place. -/
theorem tokenize_append {front back : String} {name : Option String} {read : List Token}
    (hread : tokenize front name = .ok read) (hlf : front.toList.getLast? = some '\n')
    (hback : back ≠ "") (hn : (utf8 front).length + (utf8 back).length ≤ 2 ^ 32 - 2) :
    ∃ tokens last, read = tokens ++ [last] ∧ last.isEnd = true ∧
      let lines := last.position.line - 1
      (∀ more, tokenize back name = .ok more →
        tokenize (front ++ back) name = .ok (tokens ++ more.map (Token.down lines)) ∧
          ∀ t ∈ more, t.position.line.toNat + lines.toNat < 2 ^ 32) ∧
      ∀ failure, tokenize back name = .error failure →
        tokenize (front ++ back) name = .error (failure.down lines) ∧
          ∀ p ∈ failure.position, p.line.toNat + lines.toNat < 2 ^ 32 := by
  have hlf' := getLast?_utf8_of_lineFeed hlf
  have hback' := utf8_ne_nil hback
  obtain ⟨tokens, last, rfl, hrun⟩ := Scan.exists_run_of_tokens_eq_ok hread
  -- A line takes a byte at least, so the sources bound the numbers of their lines.
  have hlines : (last.position.line - 1).toNat ≤ (utf8 front).length := by
    obtain ⟨-, hplaceLast, -⟩ := hrun.exists_ofIndex
    obtain ⟨i, hi, hposition⟩ := hplaceLast last rfl
    obtain ⟨hge, hle⟩ := Position.toNat_line_ofIndex_le (utf8 front) (by omega : i ≤ 2 ^ 32 - 2)
    have hle' : 1 ≤ (Position.ofIndex (utf8 front) i).line := UInt32.le_iff_toNat_le.2 hge
    rw [hposition, UInt32.toNat_sub_of_le _ _ hle', UInt32.toNat_one]
    omega
  have hplace {i : Nat} (hi : i ≤ (utf8 back).length) :
      (Position.ofIndex (utf8 back) i).line.toNat + (last.position.line - 1).toNat < 2 ^ 32 := by
    obtain ⟨-, hle⟩ := Position.toNat_line_ofIndex_le (utf8 back) (by omega : i ≤ 2 ^ 32 - 2)
    omega
  refine ⟨tokens, last, rfl, hrun.isEnd, ?_, ?_⟩
  · intro more hmore
    obtain ⟨more, last', rfl, hrun'⟩ := Scan.exists_run_of_tokens_eq_ok hmore
    obtain ⟨hplaces, hplaceLast, -⟩ := hrun'.exists_ofIndex
    constructor
    · rw [tokenize, utf8_append, (hrun.append hlf' hback' hrun').tokens_eq]
      simp [Except.map, Except.mapError]
    · intro t ht
      rcases List.mem_append.1 ht with ht | ht
      · obtain ⟨i, hi, hposition⟩ := hplaces t ht
        rw [hposition]
        exact hplace hi
      · obtain rfl := List.mem_singleton.1 ht
        obtain ⟨i, hi, hposition⟩ := hplaceLast _ rfl
        rw [hposition]
        exact hplace hi
  · intro failure hfailure
    obtain ⟨more, hrun'⟩ := Scan.exists_run_of_tokens_eq_error hfailure
    obtain ⟨-, -, hplaceFailure⟩ := hrun'.exists_ofIndex
    constructor
    · rw [tokenize, utf8_append, (hrun.append hlf' hback' hrun').tokens_eq]
      rfl
    · intro p hp
      obtain ⟨i, hi, hposition⟩ := hplaceFailure _ rfl
      rw [hposition] at hp
      obtain rfl := Option.some.inj hp
      exact hplace hi

/-- A text that ends in a comment over two lines, and behind it a text with a fault in its second
line, which has become the fourth. -/
theorem tokenize_append_fault_below :
    let front := "x/-\n-/\n"
    let back := "y\n'"
    let fault : Fault := .illegalCharacter '\'' 0x27
    tokenize front none = .ok [⟨.identifier, .word "x", ⟨1, 1⟩⟩, ⟨.endOfFile, .none, ⟨3, 1⟩⟩] ∧
      tokenize back none = .error ⟨fault, some ⟨2, 1⟩, Scan.defaultSource⟩ ∧
      tokenize (front ++ back) none = .error ⟨fault, some ⟨4, 1⟩, Scan.defaultSource⟩ := by
  intro front back fault
  have hx : Lexeme.Spelled ⟨.identifier, .word "x"⟩ (utf8 "x") :=
    .identifier (by decide) (by decide) (by decide)
  have hy : Lexeme.Spelled ⟨.identifier, .word "y"⟩ (utf8 "y") :=
    .identifier (by decide) (by decide) (by decide)
  have hinside : Comment.Inside [Byte.lineFeed] Comment.closing :=
    .other (by decide) (by decide) .nil
  have hbreak {after : List UInt8} : Gap.Fills [Byte.lineFeed] after := .blank (by decide) .nil
  have hfits : Layout.Fits (.cons [] (utf8 "x") ⟨.identifier, .word "x"⟩
      (.last (utf8 "/-\n-/" ++ [Byte.lineFeed]))) [] :=
    .cons .nil hx (by decide) (.last (.block ⟨_, hinside, rfl⟩ hbreak))
  have hrejected : Rejected (utf8 "y\n'") (.cons [] (utf8 "y") ⟨.identifier, .word "y"⟩
      (.last [Byte.lineFeed])) [0x27] [] (.illegalCharacter '\'' 0x27) 0 :=
    ⟨rfl, .cons .nil hy (by decide) (.last hbreak),
      .illegal (by decide) (not_startsLexeme (.inr (.inl rfl))).2 rfl⟩
  have hfront : tokenize "x/-\n-/\n" none =
      .ok [⟨.identifier, .word "x", ⟨1, 1⟩⟩, ⟨.endOfFile, .none, ⟨3, 1⟩⟩] :=
    (hfits.run none).tokens_eq
  have hback : tokenize "y\n'" none =
      .error ⟨.illegalCharacter '\'' 0x27, some ⟨2, 1⟩, Scan.defaultSource⟩ :=
    (hrejected.run none).tokens_eq
  have hlf : "x/-\n-/\n".toList.getLast? = some '\n' := by decide
  have hne : "y\n'" ≠ "" := by decide
  have hn : (utf8 "x/-\n-/\n").length + (utf8 "y\n'").length ≤ 2 ^ 32 - 2 := by decide
  obtain ⟨tokens, last, hread, -, hbelow⟩ := tokenize_append hfront hlf hne hn
  obtain rfl : ⟨.endOfFile, .none, ⟨3, 1⟩⟩ = last := by
    simpa using congrArg List.getLast? hread
  exact ⟨hfront, hback, (hbelow.2 _ hback).1⟩

end Lexis
