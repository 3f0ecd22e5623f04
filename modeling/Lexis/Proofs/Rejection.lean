import Lexis.Proofs.Layout

/-! Sources that cannot be read.
Such a source is a layout up to its first offence. The scan reads the lexemes of the layout and
reports the offence, and nothing behind the offence has a say in that. -/
namespace Lexis

/-- The source is a layout, an offence, and anything behind it. The offence ends where its fault is
settled: a word and a number are as long as they can be, and an open comment reaches to the end. -/
structure Rejected (bytes : List UInt8) (layout : Layout) (item after : List UInt8) (fault : Fault)
    (offset : Nat) : Prop where
  bytes_eq : bytes = layout.bytes ++ (item ++ after)
  fits : layout.Fits (item ++ after)
  offence : Offence item after fault offset

namespace Rejected
variable {bytes item after : List UInt8} {layout : Layout} {fault : Fault} {offset : Nat}

/-- The fault lies in the source. -/
theorem index_lt (h : Rejected bytes layout item after fault offset) :
    layout.bytes.length + offset < bytes.length := by
  have hlength := congrArg List.length h.bytes_eq
  have hlt := h.offence.offset_lt
  rw [List.length_append, List.length_append] at hlength
  omega

/-- The place of the fault depends on nothing behind the offence. -/
theorem ofIndex_eq (h : Rejected bytes layout item after fault offset) :
    Position.ofIndex bytes (layout.bytes.length + offset) =
      .ofIndex (layout.bytes ++ item) (layout.bytes.length + offset) := by
  have hlt : layout.bytes.length + offset < (layout.bytes ++ item).length := by
    rw [List.length_append]
    exact Nat.add_lt_add_left h.offence.offset_lt _
  rw [h.bytes_eq, ← List.append_assoc]
  exact Position.ofIndex_append hlt after

theorem exists_reads_error (h : Rejected bytes layout item after fault offset)
    (name : Option String) :
    ∃ s s', (Scan.ofBytes bytes name).Reads layout.tokens s ∧
      s.readToken = (.error ⟨fault, some (.ofIndex bytes (layout.bytes.length + offset)),
        name.getD Scan.defaultSource⟩, s') := by
  rw [h.ofIndex_eq, h.bytes_eq]
  exact h.fits.exists_reads_error h.offence name

theorem run (h : Rejected bytes layout item after fault offset) (name : Option String) :
    (Scan.ofBytes bytes name).Run layout.tokens
      (.error ⟨fault, some (.ofIndex bytes (layout.bytes.length + offset)),
        name.getD Scan.defaultSource⟩) := by
  obtain ⟨s, s', hrun, herror⟩ := h.exists_reads_error name
  exact ⟨s, s', hrun, herror, Scan.ended_of_error herror⟩

/-- The offence is the same whatever stands behind it. -/
theorem replace (h : Rejected bytes layout item after fault offset) {after' : List UInt8}
    (hoffence : Offence item after' fault offset) :
    Rejected (layout.bytes ++ (item ++ after')) layout item after' fault offset := by
  refine ⟨rfl, h.fits.congr ?_, hoffence⟩
  have hne : item ≠ [] := List.ne_nil_of_length_pos (Nat.zero_lt_of_lt h.offence.offset_lt)
  rw [List.head?_append_of_ne_nil item hne, List.head?_append_of_ne_nil item hne]

/-- A source has its fault in one place. -/
theorem index_unique {item' after' : List UInt8} {layout' : Layout} {fault' : Fault}
    {offset' : Nat} (h : Rejected bytes layout item after fault offset)
    (h' : Rejected bytes layout' item' after' fault' offset') :
    layout.bytes.length + offset = layout'.bytes.length + offset' := by
  obtain ⟨j, gap, hj, hdrop, hgap, hlength, hrun⟩ := h.fits.exists_reads_ofBytes none
  obtain ⟨j', gap', hj', hdrop', hgap', hlength', hrun'⟩ := h'.fits.exists_reads_ofBytes none
  obtain ⟨s, hstep⟩ := Scan.readToken_of_offence hj hdrop hgap h.offence none
  obtain ⟨s', hstep'⟩ := Scan.readToken_of_offence hj' hdrop' hgap' h'.offence none
  rw [← h.bytes_eq] at hj hdrop hrun hstep
  rw [← h'.bytes_eq] at hj' hdrop' hrun' hstep'
  -- Both runs stop where they cannot go on, which is before the same last gap.
  obtain ⟨-, hscan⟩ := hrun.unique hrun' (Scan.ended_of_error hstep) (Scan.ended_of_error hstep')
  have hrest := congrArg (fun s : Scan => s.cursor.rest) hscan
  simp only [Scan.rest_atIndex] at hrest
  have hindex : j = j' := by
    have hcount := congrArg List.length hrest
    rw [List.length_drop, List.length_drop] at hcount
    omega
  have hplace := h.offence.place_unique h'.offence hgap hgap' (by rw [← hdrop, ← hdrop', hrest])
  omega

theorem not_fits_nil (h : Rejected bytes layout item after fault offset) {whole : Layout}
    (hbytes : whole.bytes = bytes) : ¬ whole.Fits [] := by
  intro hfits
  have hrun := hfits.run none
  rw [hbytes] at hrun
  obtain ⟨-, houtcome⟩ := hrun.unique (h.run none)
  cases houtcome

/-- No layout reaches beyond the place of the fault. -/
theorem length_le (h : Rejected bytes layout item after fault offset) {front : Layout}
    {rest : List UInt8} (hbytes : bytes = front.bytes ++ rest) (hfits : front.Fits rest) :
    front.bytes.length ≤ layout.bytes.length + offset := by
  obtain ⟨more, rest, rfl, hmore, hrest⟩ := Layout.exists_fits rest
  have hwhole := hfits.append hmore
  rw [← List.append_assoc, ← Layout.bytes_append] at hbytes
  rcases hrest with rfl | ⟨item', after', fault', offset', rfl, hoffence⟩
  · rw [List.append_nil] at hbytes
    exact absurd hwhole (h.not_fits_nil hbytes.symm)
  · have hplace := h.index_unique ⟨hbytes, hwhole, hoffence⟩
    rw [Layout.bytes_append, List.length_append] at hplace
    omega

/-- The fault does not lie in a complete comment. -/
theorem length_comment_le (h : Rejected bytes layout item after fault offset) {front : Layout}
    {comment rest : List UInt8} (hbytes : bytes = front.bytes ++ (comment ++ rest))
    (hfits : front.Fits (comment ++ rest))
    (hcomment : Comment.Line comment rest ∨ Comment.Block comment) :
    front.bytes.length + comment.length ≤ layout.bytes.length + offset := by
  have hgap : (Layout.last comment).Fits rest := .last (Gap.fills_of_comment hcomment)
  have hfront : bytes = (front.append (.last comment)).bytes ++ rest := by
    rw [hbytes, Layout.bytes_append, List.append_assoc]
    rfl
  have hlength := h.length_le hfront (hfits.append hgap)
  rwa [Layout.bytes_append, List.length_append] at hlength

end Rejected

/-- Every source is a layout or is rejected. -/
theorem exists_fits_or_rejected (bytes : List UInt8) :
    (∃ layout : Layout, layout.bytes = bytes ∧ layout.Fits []) ∨
      ∃ layout item after fault offset, Rejected bytes layout item after fault offset := by
  obtain ⟨layout, rest, hbytes, hfits, hrest⟩ := Layout.exists_fits bytes
  rcases hrest with rfl | ⟨item, after, fault, offset, rfl, hoffence⟩
  · rw [List.append_nil] at hbytes
    exact .inl ⟨layout, hbytes.symm, hfits⟩
  · exact .inr ⟨layout, item, after, fault, offset, hbytes, hfits, hoffence⟩

/-- Every scan of a source comes to an end or to a failure. -/
theorem Scan.exists_run (bytes : List UInt8) (name : Option String) :
    ∃ tokens outcome, (Scan.ofBytes bytes name).Run tokens outcome := by
  obtain ⟨tokens, outcome, hrun, -⟩ := exists_run_le (ofBytes bytes name)
  exact ⟨tokens, outcome, hrun⟩

theorem Scan.exists_run_of_tokens_eq_ok {bytes : List UInt8} {name : Option String}
    {read : List Token} (h : (Scan.ofBytes bytes name).tokens = .ok read) :
    ∃ tokens last, read = tokens ++ [last] ∧ (Scan.ofBytes bytes name).Run tokens (.ok last) := by
  obtain ⟨tokens, outcome, hrun⟩ := exists_run bytes name
  rw [hrun.tokens_eq] at h
  cases outcome with
  | ok last => exact ⟨tokens, last, (Except.ok.inj h).symm, hrun⟩
  | error failure => cases h

theorem Scan.exists_run_of_tokens_eq_error {bytes : List UInt8} {name : Option String}
    {failure : Failure} (h : (Scan.ofBytes bytes name).tokens = .error failure) :
    ∃ tokens, (Scan.ofBytes bytes name).Run tokens (.error failure) := by
  obtain ⟨tokens, outcome, hrun⟩ := exists_run bytes name
  rw [hrun.tokens_eq] at h
  cases outcome with
  | ok last => cases h
  | error failure' =>
    cases h
    exact ⟨tokens, hrun⟩

/-- A run to the end is the reading of a layout, and a run to a failure that of a layout and an
offence. -/
theorem Scan.Run.fits_or_rejected {bytes : List UInt8} {name : Option String}
    {tokens : List Token} {outcome : Except Failure Token}
    (h : (Scan.ofBytes bytes name).Run tokens outcome) :
    (∃ layout : Layout, layout.bytes = bytes ∧ layout.Fits [] ∧ layout.tokens = tokens ∧
      outcome = .ok ⟨.endOfFile, .none, .ofIndex bytes bytes.length⟩) ∨
    ∃ layout item after fault offset, Rejected bytes layout item after fault offset ∧
      layout.tokens = tokens ∧
      outcome = .error ⟨fault, some (.ofIndex bytes (layout.bytes.length + offset)),
        name.getD Scan.defaultSource⟩ := by
  rcases exists_fits_or_rejected bytes with
    ⟨layout, rfl, hfits⟩ | ⟨layout, item, after, fault, offset, hrejected⟩
  · obtain ⟨htokens, houtcome⟩ := h.unique (hfits.run name)
    exact .inl ⟨layout, rfl, hfits, htokens.symm, houtcome⟩
  · obtain ⟨htokens, houtcome⟩ := h.unique (hrejected.run name)
    exact .inr ⟨layout, item, after, fault, offset, hrejected, htokens.symm, houtcome⟩

/-- A source on which a scan fails is rejected, and the scan has read what stands before the
offence. -/
theorem exists_rejected_of_error {bytes : List UInt8} {name : Option String} {tokens : List Token}
    {failure : Failure} {s s' : Scan} (hreads : (Scan.ofBytes bytes name).Reads tokens s)
    (herror : s.readToken = (.error failure, s')) :
    ∃ layout item after fault offset, Rejected bytes layout item after fault offset ∧
      tokens = layout.tokens ∧
      failure = ⟨fault, some (.ofIndex bytes (layout.bytes.length + offset)),
        name.getD Scan.defaultSource⟩ := by
  have hrun : (Scan.ofBytes bytes name).Run tokens (.error failure) :=
    ⟨s, s', hreads, herror, Scan.ended_of_error herror⟩
  rcases hrun.fits_or_rejected with
    ⟨layout, -, -, -, houtcome⟩ | ⟨layout, item, after, fault, offset, hrejected, htokens, houtcome⟩
  · cases houtcome
  · exact ⟨layout, item, after, fault, offset, hrejected, htokens.symm, Except.error.inj houtcome⟩

/-- Reading a source ends in a failure exactly if it is rejected. The tokens before the failure are
the lexemes before the offence, and the failure is the offence at its place. It stays the same for
anything else behind the offence, and it lies behind all comments that are complete before it. The
quotes and the bytes that are not ASCII are illegal wherever they stand at the front. -/
theorem reads_error_iff (bytes : List UInt8) (name : Option String) :
    (∀ tokens failure,
      (∃ s s', (Scan.ofBytes bytes name).Reads tokens s ∧ s.readToken = (.error failure, s')) ↔
        ∃ layout item after fault offset, Rejected bytes layout item after fault offset ∧
          tokens = layout.tokens ∧
          failure = ⟨fault, some (.ofIndex bytes (layout.bytes.length + offset)),
            name.getD Scan.defaultSource⟩) ∧
    (∀ layout item after fault offset, Rejected bytes layout item after fault offset →
      (∀ after', Offence item after' fault offset →
        ∃ s s', (Scan.ofBytes (layout.bytes ++ (item ++ after')) name).Reads layout.tokens s ∧
          s.readToken = (.error ⟨fault, some (.ofIndex bytes (layout.bytes.length + offset)),
            name.getD Scan.defaultSource⟩, s')) ∧
      ∀ front comment rest, bytes = Layout.bytes front ++ (comment ++ rest) →
        front.Fits (comment ++ rest) → Comment.Line comment rest ∨ Comment.Block comment →
        front.bytes.length + comment.length ≤ layout.bytes.length + offset) ∧
    ∀ b after, b = 0x22 ∨ b = 0x27 ∨ 0x80 ≤ b →
      Offence [b] after (.illegalCharacter (Char.ofUInt8 b) b) 0 := by
  refine ⟨?_, ?_, ?_⟩
  · intro tokens failure
    constructor
    · rintro ⟨s, s', hrun, herror⟩
      exact exists_rejected_of_error hrun herror
    · rintro ⟨layout, item, after, fault, offset, hrejected, rfl, rfl⟩
      exact hrejected.exists_reads_error name
  · intro layout item after fault offset hrejected
    constructor
    · intro after' hoffence
      have hreplaced := hrejected.replace hoffence
      rw [hrejected.ofIndex_eq, ← hreplaced.ofIndex_eq]
      exact hreplaced.exists_reads_error name
    · intro front comment rest hbytes hfits hcomment
      exact hrejected.length_comment_le hbytes hfits hcomment
  · intro b after hb
    obtain ⟨hblank, hstart⟩ := not_startsLexeme hb
    exact .illegal hblank hstart (UInt8.toNat_toUInt32 b)

/-- Of two offences the first is reported, and the quote in the comment is none. -/
theorem reads_error_iff_two_offences :
    let bytes := Text.utf8 "f/-'-/9999999999(\""
    let failure : Failure :=
      ⟨.numberTooLarge "9999999999", some ⟨1, 7⟩, Scan.defaultSource⟩
    ∃ s s', (Scan.ofBytes bytes none).Reads [⟨.identifier, .word "f", ⟨1, 1⟩⟩] s ∧
      s.readToken = (.error failure, s') := by
  intro bytes failure
  have hword : Lexeme.Spelled ⟨.identifier, .word "f"⟩ (Text.utf8 "f") :=
    .identifier (by decide) (by decide) (by decide)
  have hquote : Comment.Inside [0x27] Comment.closing := .other (by decide) (by decide) .nil
  have hgap : Gap.Fills (Text.utf8 "/-'-/") (Text.utf8 "9999999999" ++ Text.utf8 "(\"") :=
    Gap.fills_of_comment (.inr ⟨_, hquote, rfl⟩)
  have hoffence : Offence (Text.utf8 "9999999999") (Text.utf8 "(\"")
      (.numberTooLarge "9999999999") 0 :=
    .large (by decide) (by decide) (by decide)
  have hrejected : Rejected bytes
      (.cons [] (Text.utf8 "f") ⟨.identifier, .word "f"⟩ (.last (Text.utf8 "/-'-/")))
      (Text.utf8 "9999999999") (Text.utf8 "(\"") (.numberTooLarge "9999999999") 0 :=
    ⟨rfl, .cons .nil hword (by decide) (.last hgap), hoffence⟩
  exact ((reads_error_iff bytes none).1 _ failure).2 ⟨_, _, _, _, _, hrejected, rfl, rfl⟩

end Lexis
