import Lexis.Proofs.Rejection

/-! The order of places.
Each byte moves the place forwards: to a later line, or to a later column of the same line. So the
bytes of a source stand at places in their own order, and a scan reads tokens at ever later places,
the last of which is the end or the fault. -/
namespace Lexis

namespace Position

theorem lt_trans {p q r : Position} (hpq : p < q) (hqr : q < r) : p < r := by
  rw [lt_iff] at *
  simp only [UInt32.lt_iff_toNat_lt, ← UInt32.toNat_inj] at *
  omega

theorem lt_irrefl (p : Position) : ¬ p < p := by
  rw [lt_iff, UInt32.lt_iff_toNat_lt, UInt32.lt_iff_toNat_lt]
  omega

section
variable {bytes : List UInt8}

/-- A byte is followed by a later place, as long as no number wraps. -/
theorem ofIndex_lt_succ (hn : bytes.length ≤ 2 ^ 32 - 2) {i : Nat} (hi : i < bytes.length) :
    ofIndex bytes i < ofIndex bytes (i + 1) := by
  have hne : bytes ≠ [] := List.length_pos_iff.1 (Nat.zero_lt_of_lt hi)
  obtain ⟨hline, hcolumn⟩ := toNat_ofIndex hne (by omega : i ≤ 2 ^ 32 - 2)
  obtain ⟨hline', hcolumn'⟩ := toNat_ofIndex hne (by omega : i + 1 ≤ 2 ^ 32 - 2)
  rw [lt_iff, UInt32.lt_iff_toNat_lt, UInt32.lt_iff_toNat_lt, ← UInt32.toNat_inj]
  rw [Nat.count_succ] at hline'
  by_cases hbreak : BreakAt bytes i
  · left
    rw [if_pos hbreak] at hline'
    omega
  · right
    have hle := lineStart_le bytes i
    rw [if_neg hbreak] at hline'
    rw [lineStart_succ_of_not_break hbreak] at hcolumn'
    omega

/-- Bytes further behind stand at later places, and so does the end. -/
theorem ofIndex_lt_ofIndex (hn : bytes.length ≤ 2 ^ 32 - 2) {i j : Nat} (hij : i < j)
    (hj : j ≤ bytes.length) : ofIndex bytes i < ofIndex bytes j := by
  induction j, hij using Nat.le_induction with
  | base => exact ofIndex_lt_succ hn hj
  | succ j hij ih => exact lt_trans (ih (Nat.le_of_succ_le hj)) (ofIndex_lt_succ hn hj)

theorem ofIndex_injective (hn : bytes.length ≤ 2 ^ 32 - 2) {i j : Nat} (hi : i ≤ bytes.length)
    (hj : j ≤ bytes.length) (h : ofIndex bytes i = ofIndex bytes j) : i = j := by
  rcases Nat.lt_trichotomy i j with hij | hij | hij
  · exact absurd (h ▸ ofIndex_lt_ofIndex hn hij hj) (lt_irrefl _)
  · exact hij
  · exact absurd (h ▸ ofIndex_lt_ofIndex hn hij hi) (lt_irrefl _)

theorem ofIndex_le_ofIndex (hn : bytes.length ≤ 2 ^ 32 - 2) {i j : Nat} (hij : i ≤ j)
    (hj : j ≤ bytes.length) : ofIndex bytes i ≤ ofIndex bytes j := by
  rcases Nat.eq_or_lt_of_le hij with rfl | hlt
  · exact .inr ⟨rfl, UInt32.le_refl _⟩
  · exact (lt_iff.1 (ofIndex_lt_ofIndex hn hlt hj)).imp_right (.imp_right UInt32.le_of_lt)

/-- In a source that is not empty all places are in the first line and column or behind them. -/
theorem one_le_ofIndex (hne : bytes ≠ []) {i : Nat} (hi : i ≤ 2 ^ 32 - 2) :
    1 ≤ (ofIndex bytes i).line ∧ 1 ≤ (ofIndex bytes i).column := by
  obtain ⟨hline, hcolumn⟩ := toNat_ofIndex hne hi
  rw [UInt32.le_iff_toNat_le, UInt32.le_iff_toNat_le, UInt32.toNat_one]
  omega

end

end Position

/-- Moving further never leads to an earlier place. -/
theorem Cursor.position_advanceBy_le {bytes : List UInt8} (hn : bytes.length ≤ 2 ^ 32 - 2)
    {c : Cursor} {i : Nat} (hc : c = (ofBytes bytes).advanceBy i) {m n : Nat} (hmn : m ≤ n) :
    (c.advanceBy m).position ≤ (c.advanceBy n).position := by
  have hposition (k : Nat) :
      (c.advanceBy k).position = .ofIndex bytes (min (i + k) bytes.length) := by
    rw [hc, advanceBy_advanceBy, advanceBy_min_length]
    exact position_advanceBy_ofBytes bytes (Nat.min_le_right ..)
  rw [hposition, hposition]
  exact Position.ofIndex_le_ofIndex hn (by omega) (Nat.min_le_right ..)

namespace Layout

def starts (i : Nat) : Layout → List Nat
  | last _ => []
  | cons gap text _ behind => (i + gap.length) :: behind.starts (i + gap.length + text.length)

theorem map_position_tokensFrom (source : List UInt8) (layout : Layout) (i : Nat) :
    (layout.tokensFrom source i).map Token.position =
      (layout.starts i).map (Position.ofIndex source) := by
  induction layout generalizing i with
  | last => rfl
  | cons gap text l behind ih => rw [tokensFrom, starts, List.map_cons, List.map_cons, ih]

/-- Lexemes begin one behind the other, and before all that stands behind the layout. -/
theorem Fits.pairwise_starts {layout : Layout} {after : List UInt8} (h : layout.Fits after)
    {i j : Nat} (hj : i + layout.bytes.length ≤ j) :
    (∀ k ∈ layout.starts i ++ [j], i ≤ k) ∧ (layout.starts i ++ [j]).Pairwise (· < ·) := by
  induction h generalizing i with
  | last =>
    refine ⟨?_, List.pairwise_singleton _ j⟩
    intro k hk
    obtain rfl := List.mem_singleton.1 hk
    exact Nat.le_of_add_right_le hj
  | @cons gap text l behind after _ hspelled _ _ ih =>
    have hpos : 0 < text.length := List.length_pos_iff.2 hspelled.ne_nil
    rw [bytes, List.length_append, List.length_append] at hj
    obtain ⟨hle, hpairwise⟩ := ih (i := i + gap.length + text.length) (by omega)
    rw [starts, List.cons_append]
    refine ⟨?_, List.pairwise_cons.2 ⟨?_, hpairwise⟩⟩
    · intro k hk
      rcases List.mem_cons.1 hk with rfl | hk
      · exact Nat.le_add_right i _
      · exact Nat.le_trans (by omega) (hle k hk)
    · intro k hk
      exact Nat.lt_of_lt_of_le (by omega) (hle k hk)

end Layout

namespace Scan

def place? : Except Failure Token → Option Position
  | .ok token => some token.position
  | .error failure => failure.position

/-- The places in a run are those of ascending indices. -/
theorem Run.exists_indices {bytes : List UInt8} {name : Option String} {tokens : List Token}
    {outcome : Except Failure Token} (h : (ofBytes bytes name).Run tokens outcome) :
    ∃ (starts : List Nat) (last : Nat), tokens.map Token.position = starts.map (.ofIndex bytes) ∧
      place? outcome = some (.ofIndex bytes last) ∧ last ≤ bytes.length ∧
      (starts ++ [last]).Pairwise (· < ·) := by
  rcases h.fits_or_rejected with
    ⟨layout, rfl, hfits, rfl, rfl⟩ | ⟨layout, item, after, fault, offset, hrejected, rfl, rfl⟩
  · refine ⟨layout.starts 0, layout.bytes.length, ?_, rfl, Nat.le_refl _, ?_⟩
    · exact layout.map_position_tokensFrom layout.bytes 0
    · exact (hfits.pairwise_starts (Nat.le_of_eq (Nat.zero_add _))).2
  · refine ⟨layout.starts 0, layout.bytes.length + offset, ?_, rfl,
      Nat.le_of_lt hrejected.index_lt, ?_⟩
    · have hzero := Nat.le_of_eq (Nat.zero_add layout.bytes.length)
      rw [Layout.tokens, ← hrejected.fits.tokensFrom_append hzero (item ++ after),
        ← hrejected.bytes_eq]
      exact layout.map_position_tokensFrom bytes 0
    · exact (hrejected.fits.pairwise_starts (by omega)).2

/-- Tokens are read at ever later places, and the end or the fault is placed behind them all. Only
the end of an empty source has no column. Two bytes never stand at one place, and the earlier byte
stands at the earlier place. -/
theorem pairwise_lt_places {bytes : List UInt8} (hn : bytes.length ≤ 2 ^ 32 - 2)
    (name : Option String) :
    (∃ tokens outcome, (ofBytes bytes name).Run tokens outcome) ∧
    (∀ tokens outcome, (ofBytes bytes name).Run tokens outcome →
      ∃ last, place? outcome = some last ∧
        (tokens.map Token.position ++ [last]).Pairwise (· < ·) ∧
        (bytes ≠ [] → ∀ p ∈ tokens.map Token.position ++ [last], 1 ≤ p.line ∧ 1 ≤ p.column) ∧
        (bytes = [] → tokens = [] ∧ outcome = .ok ⟨.endOfFile, .none, ⟨1, 0⟩⟩)) ∧
    ∀ i j, i < j → j < bytes.length →
      ((Reader.unread bytes).advanceBy (i + 1)).position <
          ((Reader.unread bytes).advanceBy (j + 1)).position ∧
        ((Reader.unread bytes).advanceBy (i + 1)).position ≠
          ((Reader.unread bytes).advanceBy (j + 1)).position := by
  refine ⟨exists_run bytes name, ?_, ?_⟩
  · intro tokens outcome hrun
    obtain ⟨starts, last, htokens, houtcome, hlast, hpairwise⟩ := hrun.exists_indices
    -- Places are in order because the indices of their bytes are.
    have hplaces : tokens.map Token.position ++ [Position.ofIndex bytes last] =
        (starts ++ [last]).map (.ofIndex bytes) := by
      rw [htokens, List.map_append, List.map_singleton]
    have hle : ∀ i ∈ starts ++ [last], i ≤ bytes.length := by
      intro i hi
      rcases List.mem_append.1 hi with hi | hi
      · have hlt := (List.pairwise_append.1 hpairwise).2.2 i hi last (List.mem_singleton_self last)
        omega
      · exact List.mem_singleton.1 hi ▸ hlast
    refine ⟨_, houtcome, ?_, ?_, ?_⟩
    · rw [hplaces, List.pairwise_map]
      refine hpairwise.imp_of_mem ?_
      intro i j _ hj hij
      exact Position.ofIndex_lt_ofIndex hn hij (hle j hj)
    · intro hne p hp
      rw [hplaces] at hp
      obtain ⟨i, hi, rfl⟩ := List.mem_map.1 hp
      exact Position.one_le_ofIndex hne ((hle i hi).trans hn)
    · rintro rfl
      have hempty : (Layout.last []).Fits [] := .last .nil
      exact hrun.unique (hempty.run name)
  · intro i j hij hj
    rw [Reader.position_advanceBy_unread_succ, Reader.position_advanceBy_unread_succ,
      Nat.min_eq_left (by omega), Nat.min_eq_left (by omega)]
    have hlt := Position.ofIndex_lt_ofIndex hn hij (Nat.le_of_lt hj)
    refine ⟨hlt, fun heq => ?_⟩
    rw [heq] at hlt
    exact Position.lt_irrefl _ hlt

/-- The second word begins a line in a smaller column than the first, and the fault is the inner of
two open comments. -/
theorem pairwise_lt_places_nested_comment :
    let bytes := Text.utf8 " a\r\nb /-/-"
    let tokens : List Token :=
      [⟨.identifier, .word "a", ⟨1, 2⟩⟩, ⟨.identifier, .word "b", ⟨2, 1⟩⟩]
    bytes.length ≤ 2 ^ 32 - 2 ∧
      (ofBytes bytes none).Run tokens (.error ⟨.unclosedComment, some ⟨2, 5⟩, defaultSource⟩) ∧
      (tokens.map Token.position ++ [(⟨2, 5⟩ : Position)]).Pairwise (· < ·) := by
  intro bytes tokens
  have hfirst : Lexeme.Spelled ⟨.identifier, .word "a"⟩ (Text.utf8 "a") :=
    .identifier (by decide) (by decide) (by decide)
  have hsecond : Lexeme.Spelled ⟨.identifier, .word "b"⟩ (Text.utf8 "b") :=
    .identifier (by decide) (by decide) (by decide)
  have hopen : Comment.Unclosed (Text.utf8 "/-/-") 2 := .outer .nil (.innermost .nil)
  have hrejected : Rejected bytes
      (.cons (Text.utf8 " ") (Text.utf8 "a") ⟨.identifier, .word "a"⟩
        (.cons (Text.utf8 "\r\n") (Text.utf8 "b") ⟨.identifier, .word "b"⟩
          (.last (Text.utf8 " "))))
      (Text.utf8 "/-/-") [] .unclosedComment 2 :=
    ⟨rfl, .cons (.blank (by decide) .nil) hfirst (by decide)
      (.cons (.blank (by decide) (.blank (by decide) .nil)) hsecond (by decide)
        (.last (.blank (by decide) .nil))), .unclosed hopen⟩
  have hn : bytes.length ≤ 2 ^ 32 - 2 := by decide
  have hrun := hrejected.run none
  obtain ⟨-, hplaces, -⟩ := pairwise_lt_places hn none
  obtain ⟨last, hlast, hpairwise, -, -⟩ := hplaces _ _ hrun
  obtain rfl := Option.some.inj hlast
  exact ⟨hn, hrun, hpairwise⟩

end Scan

end Lexis
