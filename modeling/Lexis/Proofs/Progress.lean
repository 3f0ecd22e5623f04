import Mathlib.Logic.Function.Iterate
import Lexis.Proofs.ProgramOutcome
import Lexis.Proofs.TokenListing

/-! Reading comes to its end.
A token is read by a few loops, one inside or behind the other, and a move at the end of the source
does nothing. Each turn of a loop still either takes a byte that is there, or goes over to another
loop. What decides is the number of bytes ahead, the loop, and the first byte: a potential of the
three becomes smaller with every turn. So the turns end, they end where the scan stands behind the
token, and whatever reads token by token comes to its end too. -/
namespace Lexis

/-- The loop in which a read is. -/
inductive Stage where
  /-- Between comments. -/
  | gap
  /-- In a line comment. -/
  | line
  /-- In a block comment that stands inside so many others. -/
  | block (outer : Nat)
  | word
  | number
  | ended
deriving DecidableEq, Repr

namespace Stage

def during (continues : UInt8 → Bool) (loop behind : Stage) (ahead : List UInt8) : Stage × Nat :=
  if ahead.head?.any continues then (loop, 1) else (behind, 0)

def enter : Comment.Form → Stage × Nat
  | .line => (line, 0)
  | .block => (block 0, 2)

def start (ahead : List UInt8) : Stage × Nat :=
  match ahead with
  | [] => (ended, 0)
  | b :: _ =>
    if Byte.isWordStart b then (word, 0)
    else if Byte.isDigit b then (number, 0)
    else (ended, (Reading.symbol b ahead).length)

/-- The stage after one turn, and the number of bytes that the turn takes. -/
def turn (ahead : List UInt8) : Stage → Stage × Nat
  | gap =>
    if ahead.head?.any Byte.isBlank then (gap, 1)
    else
      match Comment.form? ahead with
      | some form => enter form
      | none => start ahead
  | line => during (!Byte.isLineBreak ·) line gap ahead
  | block outer =>
    match ahead with
    | [] => (ended, 0)
    | [_] => (block outer, 1)
    | a :: b :: _ =>
      if a = Byte.dash ∧ b = Byte.slash then
        match outer with
        | 0 => (gap, 2)
        | outer + 1 => (block outer, 2)
      else if a = Byte.slash ∧ b = Byte.dash then (block (outer + 1), 2)
      else (block outer, 1)
  | word => during Byte.isWordByte word ended ahead
  | number => during Byte.isDigit number ended ahead
  | ended => (ended, 0)

/-- What a turn lowers if it takes no byte. At a line break and at the end a line comment goes over
to the gap behind it, and elsewhere a gap goes over to a line comment. -/
def rank (ahead : List UInt8) : Stage → Nat
  | line => if ahead.head?.any (!Byte.isLineBreak ·) then 1 else 3
  | gap => 2
  | block _ => 1
  | word => 1
  | number => 1
  | ended => 0

def potential (ahead : List UInt8) (s : Stage) : Nat :=
  3 * ahead.length + s.rank ahead

theorem rank_le (ahead : List UInt8) (s : Stage) : s.rank ahead ≤ 3 := by
  cases s with
  | line =>
    rw [rank]
    split <;> decide
  | gap | block | word | number | ended => simp [rank]

theorem rank_pos {s : Stage} (h : s ≠ ended) (ahead : List UInt8) : 0 < s.rank ahead := by
  cases s with
  | line =>
    rw [rank]
    split <;> decide
  | gap | block | word | number => simp [rank]
  | ended => exact absurd rfl h

/-- A turn takes a byte that is there, or it goes over to a stage of a lower rank. -/
def Progresses (s : Stage) (ahead : List UInt8) (t : Stage × Nat) : Prop :=
  (ahead ≠ [] ∧ 0 < t.2) ∨ (t.2 = 0 ∧ t.1.rank ahead < s.rank ahead)

section
variable {s loop behind : Stage} {continues : UInt8 → Bool} {ahead : List UInt8}

theorem progresses_during
    (h : ahead.head?.any continues = false → behind.rank ahead < s.rank ahead) :
    s.Progresses ahead (during continues loop behind ahead) := by
  rw [during]
  split
  · next hcontinues =>
    refine .inl ⟨?_, Nat.one_pos⟩
    rintro rfl
    cases hcontinues
  · next hstops => exact .inr ⟨rfl, h (Bool.eq_false_iff.2 hstops)⟩

theorem progresses_start (ahead : List UInt8) : gap.Progresses ahead (start ahead) := by
  have hlexeme : 1 < gap.rank ahead := Nat.one_lt_two
  have hended : ended.rank ahead < gap.rank ahead := Nat.two_pos
  cases ahead with
  | nil => exact .inr ⟨rfl, hended⟩
  | cons b rest =>
    rw [start]
    split
    · exact .inr ⟨rfl, hlexeme⟩
    split
    · exact .inr ⟨rfl, hlexeme⟩
    · rcases Nat.eq_zero_or_pos (Reading.symbol b (b :: rest)).length with hnone | hsome
      · exact .inr ⟨hnone, hended⟩
      · exact .inl ⟨List.cons_ne_nil b rest, hsome⟩

theorem turn_gap_of_form? {form : Comment.Form} (h : Comment.form? ahead = some form) :
    gap.turn ahead = enter form := by
  have hblank : ahead.head?.any Byte.isBlank = false := by
    rw [Comment.head?_of_form? h]
    rfl
  rw [turn, hblank, if_neg Bool.false_ne_true, h]

theorem turn_gap_of_clear (h : Gap.Clear ahead) : gap.turn ahead = start ahead := by
  have hblank : ahead.head?.any Byte.isBlank = false := by
    cases hhead : ahead.head? with
    | none => rfl
    | some b =>
      rw [Option.any_some, Bool.eq_false_iff, ne_eq, Gap.isBlank_iff_mem_whiteSpace]
      exact h.notBlank b hhead
  rw [turn, hblank, if_neg Bool.false_ne_true, Comment.form?_eq_none h.notLine h.notBlock]

theorem progresses_enter {form : Comment.Form} (h : Comment.form? ahead = some form) :
    gap.Progresses ahead (enter form) := by
  have hhead := Comment.head?_of_form? h
  cases form with
  | line =>
    refine .inr ⟨rfl, ?_⟩
    rw [enter, rank, hhead]
    exact Nat.one_lt_two
  | block =>
    refine .inl ⟨?_, Nat.two_pos⟩
    rintro rfl
    cases hhead

theorem progresses_gap (ahead : List UInt8) : gap.Progresses ahead (gap.turn ahead) := by
  rw [turn]
  split
  · next hblank =>
    refine .inl ⟨?_, Nat.one_pos⟩
    rintro rfl
    cases hblank
  split
  · next hform => exact progresses_enter hform
  · exact progresses_start ahead

theorem progresses_block (outer : Nat) (ahead : List UInt8) :
    (block outer).Progresses ahead ((block outer).turn ahead) := by
  match ahead with
  | [] => exact .inr ⟨rfl, Nat.one_pos⟩
  | [b] => exact .inl ⟨List.cons_ne_nil b [], Nat.one_pos⟩
  | a :: b :: rest =>
    refine .inl ⟨List.cons_ne_nil a _, ?_⟩
    rw [turn.eq_def]
    dsimp only
    split
    · cases outer <;> exact Nat.two_pos
    split
    · exact Nat.two_pos
    · exact Nat.one_pos

theorem progresses_turn (h : s ≠ ended) (ahead : List UInt8) :
    s.Progresses ahead (s.turn ahead) := by
  cases s with
  | gap => exact progresses_gap ahead
  | block outer => exact progresses_block outer ahead
  | line =>
    apply progresses_during
    intro hbreak
    rw [rank, rank, hbreak]
    decide
  | word => exact progresses_during fun _ => Nat.one_pos
  | number => exact progresses_during fun _ => Nat.one_pos
  | ended => exact absurd rfl h

/-- Every turn makes the potential smaller. -/
theorem potential_turn_lt (h : s ≠ ended) (ahead : List UInt8) :
    (s.turn ahead).1.potential (ahead.drop (s.turn ahead).2) < s.potential ahead := by
  rw [potential, potential]
  rcases progresses_turn h ahead with ⟨hne, htaken⟩ | ⟨hnone, hrank⟩
  · have hle := (s.turn ahead).1.rank_le (ahead.drop (s.turn ahead).2)
    have hpos := rank_pos h ahead
    have hlength := List.length_pos_iff.2 hne
    rw [List.length_drop]
    omega
  · rw [hnone, List.drop_zero]
    omega

end

end Stage

/-- The extent of a gap is that of its longest items in a row, and what stands behind them either
prolongs no gap or stays open. -/
theorem Gap.exists_fills_extent (ahead : List UInt8) :
    ∃ gap rest, ahead = gap ++ rest ∧ Fills gap rest ∧
      (Clear rest ∧ extent ahead = .upTo gap.length ∨
        ∃ offset, Comment.Unclosed rest offset ∧
          extent ahead = .unclosed (gap.length + offset)) := by
  obtain ⟨gap, rest, rfl, hgap, hrest⟩ := exists_fills ahead
  refine ⟨gap, rest, rfl, hgap, ?_⟩
  rw [hgap.extent_append]
  rcases hrest with hclear | ⟨offset, hopen⟩
  · rw [extent_of_clear hclear]
    exact .inl ⟨hclear, rfl⟩
  · rw [extent_of_comment_unclosed hopen]
    exact .inr ⟨offset, hopen, rfl⟩

structure Course where
  stage : Stage
  cursor : Cursor

namespace Course

def turn (c : Course) : Course where
  stage := (c.stage.turn c.cursor.rest).1
  cursor := c.cursor.advanceBy (c.stage.turn c.cursor.rest).2

def potential (c : Course) : Nat :=
  c.stage.potential c.cursor.rest

def Leads (c c' : Course) : Prop :=
  ∃ k, turn^[k] c = c'

theorem turn_of_ended {c : Course} (h : c.stage = .ended) : c.turn = c := by
  obtain ⟨stage, cursor⟩ := c
  obtain rfl : stage = .ended := h
  rfl

theorem potential_turn_lt {c : Course} (h : c.stage ≠ .ended) : c.turn.potential < c.potential := by
  rw [potential, turn, Cursor.rest_advanceBy]
  exact Stage.potential_turn_lt h c.cursor.rest

/-- The turns end, after no more of them than the potential allows. -/
theorem exists_iterate_turn_ended (c : Course) :
    ∃ k ≤ c.potential, (turn^[k] c).stage = .ended := by
  induction hn : c.potential using Nat.strongRecOn generalizing c with
  | ind n ih =>
    subst hn
    by_cases hended : c.stage = .ended
    · exact ⟨0, Nat.zero_le _, hended⟩
    · have hlt := potential_turn_lt hended
      obtain ⟨k, hk, hlast⟩ := ih _ hlt c.turn rfl
      exact ⟨k + 1, Nat.lt_of_le_of_lt hk hlt, hlast⟩

theorem Leads.refl (c : Course) : c.Leads c :=
  ⟨0, rfl⟩

theorem Leads.trans {c c' c'' : Course} (h : c.Leads c') (h' : c'.Leads c'') : c.Leads c'' := by
  obtain ⟨k, rfl⟩ := h
  obtain ⟨m, rfl⟩ := h'
  exact ⟨m + k, Function.iterate_add_apply turn m k c⟩

/-- Whatever turns lead to is reached in no more of them than the potential allows. -/
theorem Leads.exists_iterate_turn_eq {c c' : Course} (h : c.Leads c') :
    ∃ k ≤ c.potential, turn^[k] c = c' := by
  obtain ⟨m, hm⟩ := h
  obtain ⟨k, hk, hlast⟩ := c.exists_iterate_turn_ended
  rcases Nat.le_total m k with hle | hle
  · exact ⟨m, hle.trans hk, hm⟩
  · obtain ⟨extra, rfl⟩ := Nat.exists_eq_add_of_le hle
    refine ⟨k, hk, ?_⟩
    rw [← hm, Nat.add_comm, Function.iterate_add_apply]
    exact (Function.iterate_fixed (turn_of_ended hlast) extra).symm

/-! Where the turns of a loop lead. -/

section
variable {c : Cursor} {stage stage' : Stage} {n : Nat}

theorem leads_of_turn (h : stage.turn c.rest = (stage', n)) :
    Leads ⟨stage, c⟩ ⟨stage', c.advanceBy n⟩ := by
  refine ⟨1, ?_⟩
  rw [Function.iterate_one, turn, h]

theorem leads_of_turn_zero (h : stage.turn c.rest = (stage', 0)) :
    Leads ⟨stage, c⟩ ⟨stage', c⟩ :=
  leads_of_turn h

end

/-- A loop over the bytes of a class stops behind the longest run of them. -/
theorem leads_during {continues : UInt8 → Bool} {loop behind : Stage}
    (hturn : ∀ ahead, loop.turn ahead = Stage.during continues loop behind ahead) (c : Cursor) :
    Leads ⟨loop, c⟩ ⟨behind, c.advanceBy (c.rest.takeWhile continues).length⟩ := by
  induction hrest : c.rest generalizing c with
  | nil =>
    apply leads_of_turn_zero
    rw [hturn, hrest]
    rfl
  | cons b rest ih =>
    have hstep := hturn c.rest
    rw [hrest, Stage.during, List.head?_cons, Option.any_some, ← hrest] at hstep
    rw [List.takeWhile_cons]
    split
    · next hb =>
      rw [if_pos hb] at hstep
      have hfront : c.rest = [b] ++ rest := hrest
      have hnext := Cursor.rest_advanceBy_length hfront
      rw [List.length_cons, Nat.add_comm, ← Cursor.advanceBy_advanceBy]
      exact (leads_of_turn hstep).trans (ih (c.advanceBy 1) hnext)
    · next hb =>
      rw [if_neg hb] at hstep
      exact leads_of_turn hstep

def behind (c : Cursor) : Extent → Course
  | .upTo length => ⟨.gap, c.advanceBy length⟩
  | .unclosed _ => ⟨.ended, c.toEnd⟩

section
variable {c : Cursor} {offset : Nat} {ahead : List UInt8}

private theorem rest_advanceBy_add (h : (c.advanceBy offset).rest = ahead) (n : Nat) :
    (c.advanceBy (offset + n)).rest = ahead.drop n := by
  rw [← Cursor.advanceBy_advanceBy, Cursor.rest_advanceBy, h]

private theorem leads_block {outer n : Nat} {stage : Stage} (h : (c.advanceBy offset).rest = ahead)
    (hturn : (Stage.block outer).turn ahead = (stage, n)) :
    Leads ⟨.block outer, c.advanceBy offset⟩ ⟨stage, c.advanceBy (offset + n)⟩ := by
  rw [← Cursor.advanceBy_advanceBy]
  apply leads_of_turn
  rw [h, hturn]

private theorem leads_unclosed (h : (c.advanceBy offset).rest = []) (outer : Nat) :
    Leads ⟨.block outer, c.advanceBy offset⟩ ⟨.ended, c.toEnd⟩ := by
  have hend : c.advanceBy offset = c.toEnd := by
    apply Cursor.advanceBy_of_length_le
    rwa [Cursor.rest_advanceBy, List.drop_eq_nil_iff] at h
  rw [← hend]
  exact leads_block h rfl

/-- Inside block comments the turns go through the bytes as the measure of the comments does. -/
theorem leads_inside (innermost : Nat) (outer : List Nat) (h : (c.advanceBy offset).rest = ahead) :
    Leads ⟨.block outer.length, c.advanceBy offset⟩
      (behind c (Comment.insideExtent innermost outer offset ahead)) := by
  fun_induction Comment.insideExtent innermost outer offset ahead with
  | case1 innermost outer offset => exact leads_unclosed h outer.length
  | case2 innermost outer offset a =>
    exact (leads_block h rfl).trans (leads_unclosed (rest_advanceBy_add h 1) outer.length)
  | case3 innermost offset a b ahead hclose =>
    apply leads_block h
    exact if_pos hclose
  | case4 innermost offset a b ahead hclose o os ih =>
    refine (leads_block h ?_).trans (ih (rest_advanceBy_add h 2))
    exact if_pos hclose
  | case5 innermost outer offset a b ahead hclose hopen ih =>
    refine (leads_block h ?_).trans (ih (rest_advanceBy_add h 2))
    exact (if_neg hclose).trans (if_pos hopen)
  | case6 innermost outer offset a b ahead hclose hopen ih =>
    refine (leads_block h ?_).trans (ih (rest_advanceBy_add h 1))
    exact (if_neg hclose).trans (if_neg hopen)

end

/-! Where the turns of a gap and of a lexeme lead. -/

theorem leads_comment {c : Cursor} {form : Comment.Form} (h : Comment.form? c.rest = some form) :
    Leads ⟨.gap, c⟩ (behind c (Comment.extent form c.rest)) := by
  have hturn := Stage.turn_gap_of_form? h
  cases form with
  | line => exact (leads_of_turn_zero hturn).trans (leads_during (fun _ => rfl) c)
  | block => exact (leads_of_turn hturn).trans (leads_inside 0 [] (c.rest_advanceBy 2))

private theorem leads_comment_append {c : Cursor} {comment gap after : List UInt8}
    {form : Comment.Form} (hrest : c.rest = comment ++ gap ++ after)
    (hform : Comment.form? (comment ++ (gap ++ after)) = some form)
    (hextent : Comment.extent form (comment ++ (gap ++ after)) = .upTo comment.length)
    (hgap : ∀ {c : Cursor}, c.rest = gap ++ after →
      Leads ⟨.gap, c⟩ ⟨.gap, c.advanceBy gap.length⟩) :
    Leads ⟨.gap, c⟩ ⟨.gap, c.advanceBy (comment ++ gap).length⟩ := by
  rw [List.append_assoc] at hrest
  have hbehind := Cursor.rest_advanceBy_length hrest
  rw [← hrest] at hform hextent
  have hcomment := leads_comment hform
  rw [hextent] at hcomment
  rw [List.length_append, ← Cursor.advanceBy_advanceBy]
  exact hcomment.trans (hgap hbehind)

/-- A gap is left at its end. -/
theorem leads_fills {gap after : List UInt8} (h : Gap.Fills gap after) {c : Cursor}
    (hrest : c.rest = gap ++ after) : Leads ⟨.gap, c⟩ ⟨.gap, c.advanceBy gap.length⟩ := by
  induction h generalizing c with
  | nil => exact .refl _
  | @blank b gap after hblank _ ih =>
    have hturn : Stage.gap.turn c.rest = (.gap, 1) := by
      rw [hrest]
      exact if_pos (Gap.isBlank_iff_mem_whiteSpace.2 hblank)
    have hfront : c.rest = [b] ++ (gap ++ after) := hrest
    have hbehind := Cursor.rest_advanceBy_length hfront
    rw [List.length_cons, Nat.add_comm, ← Cursor.advanceBy_advanceBy]
    exact (leads_of_turn hturn).trans (ih hbehind)
  | line hline _ ih => exact leads_comment_append hrest hline.form?_append hline.extent_append ih
  | block hblock _ ih =>
    exact leads_comment_append hrest (hblock.form?_append _) (hblock.blockExtent_append _) ih

theorem leads_next {c : Cursor} (h : Gap.Clear c.rest) :
    Leads ⟨.gap, c⟩ ⟨.ended, c.advanceBy (Reading.next c.rest).length⟩ := by
  have hturn := Stage.turn_gap_of_clear h
  rw [Reading.next.eq_def]
  cases hrest : c.rest with
  | nil =>
    apply leads_of_turn
    rw [hturn, hrest]
    rfl
  | cons b rest =>
    dsimp only
    split
    · next hword =>
      rw [Reading.length_word, ← hrest]
      have hbegin : Stage.gap.turn c.rest = (.word, 0) := by
        rw [hturn, hrest]
        exact if_pos hword
      exact (leads_of_turn_zero hbegin).trans (leads_during (fun _ => rfl) c)
    split
    · next hword hdigit =>
      rw [Reading.length_number, ← hrest]
      have hbegin : Stage.gap.turn c.rest = (.number, 0) := by
        rw [hturn, hrest]
        exact (if_neg hword).trans (if_pos hdigit)
      exact (leads_of_turn_zero hbegin).trans (leads_during (fun _ => rfl) c)
    · next hword hdigit =>
      apply leads_of_turn
      rw [hturn, hrest]
      exact (if_neg hword).trans (if_neg hdigit)

/-- The turns of a gap go through the bytes as its measure does. -/
theorem leads_gap (c : Cursor) : Leads ⟨.gap, c⟩ (behind c (Gap.extent c.rest)) := by
  obtain ⟨gap, rest, hrest, hgap, hbehind⟩ := Gap.exists_fills_extent c.rest
  have hleads := leads_fills hgap hrest
  rcases hbehind with ⟨-, hextent⟩ | ⟨offset, hopen, hextent⟩
  · rw [hextent]
    exact hleads
  · have hopen' := Cursor.rest_advanceBy_length hrest ▸ hopen
    have hcomment := leads_comment hopen'.form?_eq
    rw [Comment.extent, hopen'.blockExtent_eq, behind, Cursor.toEnd_advanceBy] at hcomment
    rw [hextent]
    exact hleads.trans hcomment

end Course

namespace Scan

def course (s : Scan) : Course where
  stage := if s.failed.isSome then .ended else .gap
  cursor := s.cursor

theorem potential_course_le (s : Scan) : s.course.potential ≤ 3 * s.cursor.rest.length + 2 := by
  rw [Course.potential, course]
  split <;> simp [Stage.potential, Stage.rank]

theorem clear_of_skip {s s' : Scan} (h : s.skip (Gap.extent s.cursor.rest) = (.ok (), s')) :
    Gap.Clear s'.cursor.rest := by
  obtain ⟨gap, rest, hrest, -, ⟨hclear, hextent⟩ | ⟨offset, -, hextent⟩⟩ :=
    Gap.exists_fills_extent s.cursor.rest
  · rw [hextent] at h
    obtain ⟨-, rfl⟩ := Prod.mk.inj h
    exact (Cursor.rest_advanceBy_length hrest).symm ▸ hclear
  · rw [hextent] at h
    cases h

/-- The turns lead to where the scan stands behind the read. -/
theorem leads_readLexeme (s : Scan) :
    Course.Leads ⟨.gap, s.cursor⟩ ⟨.ended, s.readLexeme.2.cursor⟩ := by
  have hgap := Course.leads_gap s.cursor
  rw [readLexeme]
  cases hextent : Gap.extent s.cursor.rest with
  | unclosed opener =>
    rw [hextent] at hgap
    exact hgap
  | upTo length =>
    have hskip : s.skip (Gap.extent s.cursor.rest) =
        (.ok (), { s with cursor := s.cursor.advanceBy length }) := by
      rw [hextent]
      rfl
    have hclear := clear_of_skip hskip
    rw [hextent] at hgap
    exact hgap.trans (Course.leads_next hclear)

theorem leads_readToken (s : Scan) : s.course.Leads ⟨.ended, s.readToken.2.cursor⟩ := by
  rw [course]
  cases hfailed : s.failed with
  | some failure =>
    rw [readToken_of_failed hfailed]
    exact .refl _
  | none =>
    have hleads := s.leads_readLexeme
    rw [readToken, hfailed]
    cases hread : s.readLexeme with
    | mk outcome s' =>
      rw [hread] at hleads
      cases outcome <;> exact hleads

theorem Lists.length_le {s s' : Scan} {items : List (Except Failure Token)}
    (h : s.Lists items s') : items.length ≤ s.itemBound := by
  induction h with
  | nil => exact Nat.zero_le _
  | cons hitem _ ih => exact Nat.lt_of_le_of_lt ih (itemBound_next?_lt hitem)

theorem itemBound_le (s : Scan) : s.itemBound ≤ s.cursor.rest.length + 1 := by
  rw [itemBound]
  split
  · exact Nat.zero_le _
  · exact Nat.le_refl _

theorem length_le_of_tokens_eq_ok {s : Scan} {read : List Token} (h : s.tokens = .ok read) :
    read.length ≤ s.cursor.rest.length + 1 := by
  obtain ⟨tokens, outcome, hrun, hle⟩ := s.exists_run_le
  rw [hrun.tokens_eq] at h
  cases outcome with
  | error failure => cases h
  | ok last =>
    obtain rfl := Except.ok.inj h
    rw [List.length_append]
    exact Nat.succ_le_succ hle

/-- Wherever a scan stands and whatever has been asked of it before, reading its next token comes to
an end. The turns of the loops are bounded by the bytes ahead, of which one is the byte it stands
on, and they end where the read leaves the scan. If no comment stays open, nothing that prolongs the
gap is behind it. A token other than the end leaves fewer bytes ahead. So at most as many tokens as
there are bytes come before the end or a failure. In this way the tokens are collected and listed,
and the program reads them, from any bytes. -/
theorem reading_ends (bytes : List UInt8) (name : Option String) :
    (∀ s : Scan,
      let n := s.cursor.rest.length
      (∃ k ≤ 3 * n + 2, Course.turn^[k] s.course = ⟨.ended, s.readToken.2.cursor⟩) ∧
      (∀ s', s.skip (Gap.extent s.cursor.rest) = (.ok (), s') → Gap.Clear s'.cursor.rest) ∧
      (∀ token s', s.readToken = (.ok token, s') → token.isEnd = false →
        s'.cursor.rest.length < n) ∧
      (∃ tokens outcome, s.Run tokens outcome ∧ tokens.length ≤ n ∧
        s.tokens = outcome.map (tokens ++ [·])) ∧
      ∃ items s', s.Lists items s' ∧ s.list = (items, s') ∧ items.length ≤ n + 1) ∧
    (∀ i calls, ((atIndex bytes name i).afterAll calls).cursor.rest.length ≤ bytes.length - i) ∧
    (∀ source read, Text.utf8 source = bytes → tokenize source name = .ok read →
      read.length ≤ bytes.length + 1) ∧
    (∀ path read, tokenizeFile path (.ok bytes) = .ok read → read.length ≤ bytes.length + 1) ∧
    ∀ settings : CommandLine.Settings, ∃ tokens outcome,
      (ofBytes bytes (some (settings.name.getD settings.path.sourceName))).Run tokens outcome ∧
      tokens.length ≤ bytes.length ∧
      settings.answer (.ok bytes) = settings.answerTo bytes (outcome.map (tokens ++ [·])) := by
  refine ⟨fun s => ?_, fun i calls => ?_, ?_, ?_, fun settings => ?_⟩
  · intro n
    refine ⟨?_, fun _ => clear_of_skip, fun _ _ => length_rest_readToken_lt, ?_, ?_⟩
    · obtain ⟨k, hk, hlast⟩ := s.leads_readToken.exists_iterate_turn_eq
      exact ⟨k, hk.trans s.potential_course_le, hlast⟩
    · obtain ⟨tokens, outcome, hrun, hle⟩ := s.exists_run_le
      exact ⟨tokens, outcome, hrun, hle, hrun.tokens_eq⟩
    · have hlists := s.lists_list
      exact ⟨s.list.1, s.list.2, hlists, rfl, hlists.length_le.trans s.itemBound_le⟩
  · obtain ⟨⟨m, hcursor⟩, -⟩ := (atIndex bytes name i).exists_afterAll_eq calls
    rw [hcursor, Cursor.rest_advanceBy, rest_atIndex, List.length_drop, List.length_drop]
    exact Nat.sub_le _ m
  · rintro source read rfl hread
    exact length_le_of_tokens_eq_ok hread
  · intro path read hread
    exact length_le_of_tokens_eq_ok (s := ofBytes bytes (some path.sourceName)) hread
  · obtain ⟨tokens, outcome, hrun, hle⟩ :=
      (ofBytes bytes (some (settings.name.getD settings.path.sourceName))).exists_run_le
    refine ⟨tokens, outcome, hrun, hle, ?_⟩
    rw [settings.answer_eq, hrun.tokens_eq]

/-- A scan begins at the second byte and reads a word. The mark of a comment behind it is cut off by
the end, which keeps no read from ending. -/
theorem reading_ends_cut_mark :
    let s := (atIndex (Text.utf8 "-a/") none 1).afterAll [.readToken]
    s.cursor.rest = [Byte.slash] ∧ s.readToken.2.cursor.rest = [] ∧
      (∃ k ≤ 5, Course.turn^[k] s.course = ⟨.ended, s.readToken.2.cursor⟩) ∧
      ∃ tokens outcome, s.Run tokens outcome ∧ tokens.length ≤ 1 := by
  intro s
  have hrest : s.cursor.rest = [Byte.slash] := by decide +kernel
  obtain ⟨hreads, -⟩ := reading_ends (Text.utf8 "-a/") none
  obtain ⟨hturns, -, -, ⟨tokens, outcome, hrun, hle, -⟩, -⟩ := hreads s
  have hlength : s.cursor.rest.length = 1 := congrArg List.length hrest
  rw [hlength] at hturns hle
  exact ⟨hrest, by decide +kernel, hturns, tokens, outcome, hrun, hle⟩

end Scan

end Lexis
