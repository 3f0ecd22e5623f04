import Lexis.Listing
import Lexis.Proofs.LineBreaks
import Lexis.Proofs.Offence

/-! Reading tokens one after the other.
One step skips a gap and reads what the grammar finds behind it. A run is a sequence of steps that
deliver tokens other than the end; where it ends is determined by the scan it starts from. -/
namespace Lexis.Scan

def atIndex (bytes : List UInt8) (name : Option String) (i : Nat) : Scan :=
  { ofBytes bytes name with cursor := (Cursor.ofBytes bytes).advanceBy i }

theorem atIndex_zero (bytes : List UInt8) (name : Option String) :
    atIndex bytes name 0 = ofBytes bytes name := rfl

theorem rest_atIndex (bytes : List UInt8) (name : Option String) (i : Nat) :
    (atIndex bytes name i).cursor.rest = bytes.drop i :=
  Cursor.rest_advanceBy _ i

theorem advanceBy_atIndex (bytes : List UInt8) (name : Option String) (i n : Nat) :
    (atIndex bytes name i).cursor.advanceBy n = (Cursor.ofBytes bytes).advanceBy (i + n) :=
  Cursor.advanceBy_advanceBy _ i n

theorem position_atIndex {bytes : List UInt8} {i : Nat} (h : i ≤ bytes.length)
    (name : Option String) : (atIndex bytes name i).cursor.position = .ofIndex bytes i :=
  Cursor.position_advanceBy_ofBytes bytes h

/-! One step. -/

section
variable {bytes gap rest : List UInt8} {i : Nat}

private theorem length_of_drop (hi : i ≤ bytes.length) (hdrop : bytes.drop i = gap ++ rest) :
    bytes.length = i + gap.length + rest.length := by
  have hlength := congrArg List.length hdrop
  rw [List.length_drop, List.length_append] at hlength
  omega

private theorem readLexeme_of_clear (hdrop : bytes.drop i = gap ++ rest)
    (hgap : Gap.Fills gap rest) (hclear : Gap.Clear rest) (name : Option String) :
    (atIndex bytes name i).readLexeme =
      (atIndex bytes name (i + gap.length)).take (.next rest) := by
  have hextent : Gap.extent (gap ++ rest) = .upTo gap.length := by
    rw [hgap.extent_append, Gap.extent_of_clear hclear]
    rfl
  have hrest : bytes.drop (i + gap.length) = rest := by
    rw [← List.drop_drop, hdrop, List.drop_left]
  rw [readLexeme, rest_atIndex, hdrop, hextent]
  simp only [skip, advanceBy_atIndex, Cursor.rest_advanceBy, Cursor.rest_ofBytes, hrest]
  rfl

private theorem readToken_of_readLexeme_ok {s : Scan} {token : Token} {name : Option String}
    (h : (atIndex bytes name i).readLexeme = (.ok token, s)) :
    (atIndex bytes name i).readToken = (.ok token, s) := by
  rw [readToken, h]
  rfl

private theorem exists_readToken_error {failure : Failure} {name : Option String}
    (h : (atIndex bytes name i).readLexeme.1 = .error failure) :
    ∃ s, (atIndex bytes name i).readToken = (.error failure, s) := by
  cases hread : (atIndex bytes name i).readLexeme with
  | mk outcome s =>
    rw [hread] at h
    obtain rfl : outcome = .error failure := h
    refine ⟨{ s with failed := some failure }, ?_⟩
    rw [readToken, hread]
    rfl

/-- A lexeme behind a gap is the next token, placed at its first byte. -/
theorem readToken_of_spelled {text after : List UInt8} {l : Lexeme} (hi : i ≤ bytes.length)
    (hdrop : bytes.drop i = gap ++ (text ++ after)) (hgap : Gap.Fills gap (text ++ after))
    (hspelled : l.Spelled text) (hstops : l.Stops after) (name : Option String) :
    (atIndex bytes name i).readToken =
      (.ok ⟨l.kind, l.payload, .ofIndex bytes (i + gap.length)⟩,
        atIndex bytes name (i + gap.length + text.length)) := by
  have hle : i + gap.length ≤ bytes.length := by
    have hlength := length_of_drop hi hdrop
    omega
  apply readToken_of_readLexeme_ok
  rw [readLexeme_of_clear hdrop hgap (hspelled.clear hstops), hspelled.next_append hstops]
  simp only [take, position_atIndex hle, advanceBy_atIndex]
  rfl

/-- A gap up to the end is followed by the token of the end. -/
theorem readToken_of_end (hi : i ≤ bytes.length) (hdrop : bytes.drop i = gap)
    (hgap : Gap.Fills gap []) (name : Option String) :
    (atIndex bytes name i).readToken =
      (.ok ⟨.endOfFile, .none, .ofIndex bytes bytes.length⟩, atIndex bytes name bytes.length) := by
  rw [← List.append_nil gap] at hdrop
  have hlength : i + gap.length = bytes.length := (length_of_drop hi hdrop).symm
  apply readToken_of_readLexeme_ok
  rw [readLexeme_of_clear hdrop hgap Gap.clear_nil, hlength]
  simp only [take, Reading.next, position_atIndex (Nat.le_refl _), advanceBy_atIndex]
  rfl

/-- An offence behind a gap is the failure of the scan. -/
theorem readToken_of_offence {item after : List UInt8} {fault : Fault} {offset : Nat}
    (hi : i ≤ bytes.length) (hdrop : bytes.drop i = gap ++ (item ++ after))
    (hgap : Gap.Fills gap (item ++ after)) (hoffence : Offence item after fault offset)
    (name : Option String) :
    ∃ s, (atIndex bytes name i).readToken =
      (.error ⟨fault, some (.ofIndex bytes (i + gap.length + offset)),
        name.getD defaultSource⟩, s) := by
  have hlength := length_of_drop hi hdrop
  have hlt := hoffence.offset_lt
  rw [List.length_append] at hlength
  rcases hoffence.unclosed_or_next_eq with ⟨rfl, hopen⟩ | ⟨rfl, hclear, hnext⟩
  · have hextent : Gap.extent (gap ++ (item ++ after)) = .unclosed (gap.length + offset) := by
      rw [hgap.extent_append, Gap.extent_of_comment_unclosed hopen]
      rfl
    apply exists_readToken_error
    rw [readLexeme, rest_atIndex, hdrop, hextent]
    simp only [skip, advanceBy_atIndex, ← Nat.add_assoc]
    rw [Cursor.position_advanceBy_ofBytes bytes (by omega)]
    rfl
  · apply exists_readToken_error
    rw [readLexeme_of_clear hdrop hgap hclear]
    simp only [take, hnext]
    rw [position_atIndex (by omega)]
    rfl

end

/-! Many steps. -/

/-- Reading tokens one by one from the first scan to the second delivers the tokens in between,
none of which is the end. -/
inductive Reads : Scan → List Token → Scan → Prop
  | nil {s} : Reads s [] s
  | cons {s s' s'' token tokens} (hstep : s.readToken = (.ok token, s'))
      (hkind : token.isEnd = false) (hrun : Reads s' tokens s'') : Reads s (token :: tokens) s''

theorem Reads.isEnd_eq_false {s s' : Scan} {tokens : List Token} (h : s.Reads tokens s') :
    ∀ token ∈ tokens, token.isEnd = false := by
  induction h with
  | nil => exact List.forall_mem_nil _
  | cons _ hkind _ ih => exact List.forall_mem_cons.2 ⟨hkind, ih⟩

def Ended (s : Scan) : Prop :=
  ∀ token s', s.readToken = (.ok token, s') → token.isEnd = true

theorem ended_of_error {s s' : Scan} {failure : Failure} (h : s.readToken = (.error failure, s')) :
    s.Ended := by
  intro token s'' h'
  rw [h] at h'
  cases h'

theorem ended_of_isEnd {s s' : Scan} {token : Token} (h : s.readToken = (.ok token, s'))
    (hend : token.isEnd = true) : s.Ended := by
  intro token' s'' h'
  rw [h] at h'
  cases h'
  exact hend

/-- Runs that cannot be prolonged are equal if they start from the same scan. -/
theorem Reads.unique {s a b : Scan} {tokens tokens' : List Token} (h : Reads s tokens a)
    (h' : Reads s tokens' b) (ha : a.Ended) (hb : b.Ended) : tokens = tokens' ∧ a = b := by
  induction h generalizing tokens' with
  | nil =>
    cases h' with
    | nil => exact ⟨rfl, rfl⟩
    | cons hstep hkind _ =>
      rw [ha _ _ hstep] at hkind
      cases hkind
  | cons hstep hkind _ ih =>
    cases h' with
    | nil =>
      rw [hb _ _ hstep] at hkind
      cases hkind
    | cons hstep' _ hrun' =>
      rw [hstep] at hstep'
      cases hstep'
      obtain ⟨rfl, rfl⟩ := ih hrun' ha
      exact ⟨rfl, rfl⟩

/-- The tokens of a scan are those of a run to the end, and the end. -/
theorem Reads.tokens_eq {s s' s'' : Scan} {tokens : List Token} {last : Token}
    (h : Reads s tokens s') (hlast : s'.readToken = (.ok last, s'')) (hend : last.isEnd = true) :
    s.tokens = .ok (tokens ++ [last]) := by
  induction h with
  | nil => exact tokens_of_end hlast hend
  | cons hstep hkind _ ih =>
    rw [tokens_of_token hstep hkind, ih hlast]
    rfl

/-- The failure of a scan is the one in which a run ends. -/
theorem Reads.tokens_error {s s' s'' : Scan} {tokens : List Token} {failure : Failure}
    (h : s.Reads tokens s') (herror : s'.readToken = (.error failure, s'')) :
    s.tokens = .error failure := by
  induction h with
  | nil => exact tokens_of_error herror
  | cons hstep hkind _ ih =>
    rw [tokens_of_token hstep hkind, ih herror]
    rfl

/-- A whole run: the tokens before the end or before a failure, and then the token of the end or the
failure. -/
def Run (s : Scan) (tokens : List Token) (outcome : Except Failure Token) : Prop :=
  ∃ s' s'', s.Reads tokens s' ∧ s'.readToken = (outcome, s'') ∧ s'.Ended

/-- Every scan comes to the end or to a failure, and each token before takes a byte. -/
theorem exists_run_le (s : Scan) :
    ∃ tokens outcome, s.Run tokens outcome ∧ tokens.length ≤ s.cursor.rest.length := by
  induction hn : s.cursor.rest.length using Nat.strongRecOn generalizing s with
  | ind n ih =>
    subst hn
    cases hread : s.readToken with
    | mk outcome s' =>
      cases outcome with
      | error failure =>
        exact ⟨[], .error failure, ⟨s, s', .nil, hread, ended_of_error hread⟩, Nat.zero_le _⟩
      | ok token =>
        cases hend : token.isEnd with
        | true =>
          have hended := ended_of_isEnd hread hend
          exact ⟨[], .ok token, ⟨s, s', .nil, hread, hended⟩, Nat.zero_le _⟩
        | false =>
          have hlt := length_rest_readToken_lt hread hend
          obtain ⟨tokens, outcome, ⟨t, t', hreads, hlast, hended⟩, hle⟩ := ih _ hlt s' rfl
          have hrun : s.Run (token :: tokens) outcome :=
            ⟨t, t', .cons hread hend hreads, hlast, hended⟩
          exact ⟨token :: tokens, outcome, hrun, Nat.lt_of_le_of_lt hle hlt⟩

theorem Run.unique {s : Scan} {tokens tokens' : List Token}
    {outcome outcome' : Except Failure Token} (h : s.Run tokens outcome)
    (h' : s.Run tokens' outcome') : tokens = tokens' ∧ outcome = outcome' := by
  obtain ⟨a, a', hrun, hlast, hended⟩ := h
  obtain ⟨b, b', hrun', hlast', hended'⟩ := h'
  obtain ⟨htokens, rfl⟩ := hrun.unique hrun' hended hended'
  rw [hlast] at hlast'
  cases hlast'
  exact ⟨htokens, rfl⟩

theorem Run.isEnd {s : Scan} {tokens : List Token} {last : Token} (h : s.Run tokens (.ok last)) :
    last.isEnd = true := by
  obtain ⟨s', s'', -, hlast, hended⟩ := h
  exact hended last s'' hlast

/-- Collecting the tokens is a whole run of which only the outcome is kept if it is a failure. -/
theorem Run.tokens_eq {s : Scan} {tokens : List Token} {outcome : Except Failure Token}
    (h : s.Run tokens outcome) : s.tokens = outcome.map fun last => tokens ++ [last] := by
  obtain ⟨s', s'', hrun, hlast, hended⟩ := h
  cases outcome with
  | ok last => exact hrun.tokens_eq hlast (hended last s'' hlast)
  | error failure => exact hrun.tokens_error hlast

end Lexis.Scan
