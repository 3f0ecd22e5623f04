import Lexis.Proofs.CommentNesting
import Lexis.Proofs.PlaceOrder

/-! The depth of block comments.
Inside a block comment the bytes are read in steps, each of which is a mark or a single byte. A mark
changes the depth by one, and an opening mark is closed as soon as the steps behind it have led from
the depth 1 to the depth 0. The last of the marks that are never closed is the innermost one. -/
namespace Lexis

namespace Comment

inductive Step
  | opening
  | closing
  | other (b : UInt8)
deriving DecidableEq, Repr

namespace Step

def bytes : Step → List UInt8
  | opening => Comment.opening
  | closing => Comment.closing
  | other b => [b]

def change : Step → Int
  | opening => 1
  | closing => -1
  | other _ => 0

end Step

def steps : List UInt8 → List Step
  | [] => []
  | [b] => [.other b]
  | a :: b :: ahead =>
    if a = Byte.dash ∧ b = Byte.slash then .closing :: steps ahead
    else if a = Byte.slash ∧ b = Byte.dash then .opening :: steps ahead
    else .other a :: steps (b :: ahead)

def width (read : List Step) : Nat :=
  (read.flatMap Step.bytes).length

def depth (read : List Step) : Int :=
  1 + (read.map Step.change).sum

def IsClosed (behind : List Step) : Prop :=
  ∃ read, read <+: behind ∧ depth read = 0

/-- The fewest first steps that lead from the depth 1 to the depth 0. -/
structure ClosesFirst (read behind : List Step) : Prop where
  isPrefix : read <+: behind
  depth_eq : depth read = 0
  shortest : ∀ other, other <+: behind → depth other = 0 → read.length ≤ other.length

/-- Behind the steps `front` stands an opening mark that is never closed. -/
def OpenBehind (front all : List Step) : Prop :=
  ∃ behind, all = front ++ .opening :: behind ∧ ¬ IsClosed behind

/-- Of the opening marks that are never closed, the one that stands behind `front` is the last. -/
structure Innermost (front all : List Step) : Prop where
  openBehind : OpenBehind front all
  greatest : ∀ other, OpenBehind other all → width other ≤ width front

@[simp] theorem steps_nil : steps [] = [] := rfl

theorem steps_opening (ahead : List UInt8) : steps (opening ++ ahead) = .opening :: steps ahead := by
  simp [opening, steps, Byte.slash, Byte.dash]

theorem steps_closing (ahead : List UInt8) : steps (closing ++ ahead) = .closing :: steps ahead := by
  simp [closing, steps]

theorem steps_other {b : UInt8} {ahead : List UInt8} (hopen : ¬ opening <+: b :: ahead)
    (hclose : ¬ closing <+: b :: ahead) : steps (b :: ahead) = .other b :: steps ahead := by
  cases ahead with
  | nil => rfl
  | cons c ahead =>
    rw [opening, mark_prefix_iff] at hopen
    rw [closing, mark_prefix_iff] at hclose
    rw [steps, if_neg, if_neg]
    · rintro ⟨rfl, rfl⟩
      exact hopen ⟨rfl, rfl⟩
    · rintro ⟨rfl, rfl⟩
      exact hclose ⟨rfl, rfl⟩

/-- The steps take the bytes as they are, and all of them. -/
theorem flatMap_bytes_steps (ahead : List UInt8) : (steps ahead).flatMap Step.bytes = ahead := by
  fun_induction steps ahead with
  | case1 => rfl
  | case2 => rfl
  | case3 a b ahead hclose ih =>
    obtain ⟨rfl, rfl⟩ := hclose
    rw [List.flatMap_cons, ih]
    rfl
  | case4 a b ahead _ hopen ih =>
    obtain ⟨rfl, rfl⟩ := hopen
    rw [List.flatMap_cons, ih]
    rfl
  | case5 a b ahead _ _ ih =>
    rw [List.flatMap_cons, ih]
    rfl

-- The slash that ends the closing mark does not begin an opening one.
example : steps [Byte.dash, Byte.slash, Byte.dash] = [.closing, .other Byte.dash] := by decide

@[simp] theorem width_nil : width [] = 0 := rfl

@[simp] theorem width_cons (step : Step) (read : List Step) :
    width (step :: read) = step.bytes.length + width read := by
  simp [width]

@[simp] theorem width_append (read more : List Step) :
    width (read ++ more) = width read + width more := by
  simp [width]

@[simp] theorem depth_nil : depth [] = 1 := rfl

@[simp] theorem depth_cons (step : Step) (read : List Step) :
    depth (step :: read) = step.change + depth read := by
  simp only [depth, List.map_cons, List.sum_cons]
  omega

theorem depth_append (read more : List Step) :
    depth (read ++ more) = depth read + depth more - 1 := by
  simp only [depth, List.map_append, List.sum_append]
  omega

/-- A prefix of two lists in a row is a prefix of the first, or it continues the first into the
second. -/
theorem prefix_or_continues {front read more : List Step} (h : front <+: read ++ more) :
    front <+: read ∨ ∃ behind, front = read ++ behind ∧ behind <+: more := by
  rcases List.prefix_or_prefix_of_prefix h (List.prefix_append read more) with h' | ⟨behind, rfl⟩
  · exact .inl h'
  · exact .inr ⟨behind, rfl, (List.prefix_append_right_inj read).1 h⟩

theorem IsClosed.append {behind : List Step} (h : IsClosed behind) (more : List Step) :
    IsClosed (behind ++ more) := by
  obtain ⟨read, hread, hdepth⟩ := h
  exact ⟨read, hread.trans (List.prefix_append ..), hdepth⟩

def StaysOpen (read : List Step) : Prop :=
  ∀ front, front <+: read → 1 ≤ depth front

theorem staysOpen_nil : StaysOpen [] := by
  intro front hfront
  rw [List.prefix_nil.1 hfront]
  exact Int.le_refl 1

theorem StaysOpen.not_isClosed {read : List Step} (h : StaysOpen read) : ¬ IsClosed read := by
  rintro ⟨front, hfront, hdepth⟩
  have hpos := h front hfront
  omega

theorem StaysOpen.append {read more : List Step} (h : StaysOpen read) (hmore : StaysOpen more) :
    StaysOpen (read ++ more) := by
  intro front hfront
  rcases prefix_or_continues hfront with hfront | ⟨behind, rfl, hbehind⟩
  · exact h front hfront
  · have hread := h read List.prefix_rfl
    have hpos := hmore behind hbehind
    rw [depth_append]
    omega

theorem StaysOpen.cons {step : Step} {read : List Step} (hstep : 0 ≤ step.change)
    (h : StaysOpen read) : StaysOpen (step :: read) := by
  intro front hfront
  rcases List.prefix_cons_iff.1 hfront with rfl | ⟨behind, rfl, hbehind⟩
  · exact Int.le_refl 1
  · have hpos := h behind hbehind
    rw [depth_cons]
    omega

/-- Steps that lead back to the depth from which they start, and never below it, so that all opening
marks among them are closed. -/
structure Complete (read : List Step) : Prop where
  depth_eq : depth read = 1
  staysOpen : StaysOpen read
  isClosed : ∀ front behind, read = front ++ .opening :: behind → IsClosed behind

namespace Complete

theorem nil : Complete [] :=
  ⟨rfl, staysOpen_nil, fun front behind h => by
    cases front <;> cases h⟩

theorem other {read : List Step} (h : Complete read) (b : UInt8) : Complete (.other b :: read) := by
  refine ⟨?_, h.staysOpen.cons (Int.le_refl 0), ?_⟩
  · rw [depth_cons, h.depth_eq]
    rfl
  · intro front behind hread
    cases front with
    | nil => cases hread
    | cons step front => exact h.isClosed front behind (List.cons.inj hread).2

/-- The closing mark is the first step that leads to the depth 0. -/
theorem closesFirst {inner : List Step} (h : Complete inner) (behind : List Step) :
    ClosesFirst (inner ++ [.closing]) (inner ++ .closing :: behind) := by
  refine ⟨⟨behind, (List.append_cons inner .closing behind).symm⟩, ?_, ?_⟩
  · rw [depth_append, h.depth_eq]
    rfl
  · intro other hother hdepth
    rcases prefix_or_continues hother with hother | ⟨more, rfl, hmore⟩
    · have hpos := h.staysOpen other hother
      omega
    · cases more with
      | nil =>
        rw [List.append_nil, h.depth_eq] at hdepth
        cases hdepth
      | cons step more => simp

theorem isClosed_append {inner : List Step} (h : Complete inner) (behind : List Step) :
    IsClosed (inner ++ .closing :: behind) :=
  ⟨_, (h.closesFirst behind).isPrefix, (h.closesFirst behind).depth_eq⟩

theorem comment {inner read : List Step} (hinner : Complete inner) (hread : Complete read) :
    Complete (.opening :: (inner ++ .closing :: read)) := by
  refine ⟨?_, ?_, ?_⟩
  · rw [depth_cons, depth_append, depth_cons, hinner.depth_eq, hread.depth_eq]
    rfl
  · intro front hfront
    rcases List.prefix_cons_iff.1 hfront with rfl | ⟨front, rfl, hfront'⟩
    · exact Int.le_refl 1
    rw [depth_cons, Step.change]
    rcases prefix_or_continues hfront' with hfront' | ⟨behind, rfl, hbehind⟩
    · have hpos := hinner.staysOpen front hfront'
      omega
    · rw [depth_append, hinner.depth_eq]
      rcases List.prefix_cons_iff.1 hbehind with rfl | ⟨more, rfl, hmore⟩
      · decide
      · have hpos := hread.staysOpen more hmore
        rw [depth_cons, Step.change]
        omega
  · intro front behind hall
    cases front with
    | nil =>
      rw [← (List.cons.inj hall).2]
      exact hinner.isClosed_append read
    | cons step front =>
      rcases List.append_eq_append_iff.1 (List.cons.inj hall).2 with
        ⟨between, -, hbetween⟩ | ⟨between, hfront, hbetween⟩
      · cases between with
        | nil => cases hbetween
        | cons step between => exact hread.isClosed between behind (List.cons.inj hbetween).2
      · cases between with
        | nil => cases hbetween
        | cons step between =>
          obtain ⟨rfl, rfl⟩ := List.cons.inj hbetween
          exact (hinner.isClosed front between hfront).append _

/-- Where all opening marks behind one are closed, no later one is open. -/
theorem innermost {behind : List Step} (h : Complete behind) (front : List Step) :
    Innermost front (front ++ .opening :: behind) := by
  refine ⟨⟨behind, rfl, h.staysOpen.not_isClosed⟩, ?_⟩
  rintro other ⟨more, hall, hopen⟩
  rcases List.append_eq_append_iff.1 hall with ⟨between, rfl, hbetween⟩ | ⟨between, rfl, -⟩
  · cases between with
    | nil => rw [List.append_nil]
    | cons step between =>
      exact absurd (h.isClosed between more (List.cons.inj hbetween).2) hopen
  · rw [width_append]
    exact Nat.le_add_right ..

end Complete

/-! The steps of the grammar. -/

/-- A sequence is read in complete steps, whatever stands behind it. -/
theorem Inside.exists_steps {text after : List UInt8} (h : Inside text after) :
    ∃ read, Complete read ∧ width read = text.length ∧
      ∀ next, after.head? = next.head? → steps (text ++ next) = read ++ steps next := by
  -- The steps look one byte ahead, so whatever follows may begin with the same byte.
  induction h with
  | nil => exact ⟨[], .nil, rfl, fun _ _ => rfl⟩
  | @comment inner text _ _ _ ihinner ihtext =>
    obtain ⟨within, hwithin, hinner, hsteps⟩ := ihinner
    obtain ⟨read, hread, htext, hsteps'⟩ := ihtext
    refine ⟨_, hwithin.comment hread, ?_, ?_⟩
    · simp only [width_cons, width_append, hinner, htext, List.length_append, Step.bytes]
      omega
    · intro next hnext
      have hclosing : closing.head? = (closing ++ (text ++ next)).head? := rfl
      simp only [List.append_assoc]
      rw [steps_opening, hsteps _ hclosing, steps_closing, hsteps' next hnext]
      simp only [List.cons_append, List.append_assoc]
  | @other b text _ hopen hclose _ ih =>
    obtain ⟨read, hread, htext, hsteps⟩ := ih
    refine ⟨_, hread.other b, ?_, ?_⟩
    · simp only [width_cons, htext, Step.bytes, List.length_cons, List.length_nil]
      omega
    · intro next hnext
      have hhead := head?_append_congr hnext text
      rw [opening, mark_prefix_congr hhead] at hopen
      rw [closing, mark_prefix_congr hhead] at hclose
      rw [List.cons_append, steps_other hopen hclose, hsteps next hnext]
      rfl

/-- Comments that stay open never lead to the depth 0, and the steps behind the innermost of them are
complete. -/
theorem Unclosed.exists_steps {bytes : List UInt8} {offset : Nat} (h : Unclosed bytes offset) :
    ∃ behind front last, steps bytes = .opening :: behind ∧ StaysOpen behind ∧
      steps bytes = front ++ .opening :: last ∧ Complete last ∧ width front = offset := by
  induction h with
  | innermost htext =>
    obtain ⟨read, hread, -, hsteps⟩ := htext.exists_steps
    have hall := hsteps [] rfl
    rw [List.append_nil, steps_nil, List.append_nil] at hall
    rw [steps_opening, hall]
    exact ⟨read, [], read, rfl, hread.staysOpen, rfl, hread, rfl⟩
  | @outer text rest offset htext hrest ih =>
    obtain ⟨read, hread, hlength, hsteps⟩ := htext.exists_steps
    obtain ⟨behind, front, last, hfirst, hopen, hlast, hcomplete, hwidth⟩ := ih
    have hall : steps (opening ++ text ++ rest) = .opening :: (read ++ steps rest) := by
      rw [List.append_assoc, steps_opening, hsteps rest hrest.head?_eq.symm]
    refine ⟨read ++ steps rest, .opening :: (read ++ front), last, hall, ?_, ?_, hcomplete, ?_⟩
    · rw [hfirst]
      exact hread.staysOpen.append (hopen.cons Int.one_nonneg)
    · rw [hall, hlast, List.cons_append, List.append_assoc]
    · simp only [width_cons, width_append, hlength, hwidth, Step.bytes]
      rw [← Nat.add_assoc]
      rfl

/-- The two bytes in front are taken for an opening mark, whatever they are. -/
theorem blockExtent_opening (ahead : List UInt8) :
    blockExtent (opening ++ ahead.drop 2) = blockExtent ahead := rfl

/-- A sequence and a closing mark are measured up to the first depth 0. -/
theorem Inside.closesFirst {text behind ahead : List UInt8} (h : Inside text closing)
    (hahead : ahead.drop 2 = text ++ (closing ++ behind)) :
    ∃ read, ClosesFirst read (steps (ahead.drop 2)) ∧ width read = (text ++ closing).length ∧
      blockExtent ahead = .upTo (2 + width read) := by
  obtain ⟨read, hread, hlength, hsteps⟩ := h.exists_steps
  have hall : steps (ahead.drop 2) = read ++ .closing :: steps behind := by
    have hclosing : closing.head? = (closing ++ behind).head? := rfl
    rw [hahead, hsteps _ hclosing, steps_closing]
  have hwidth : width (read ++ [.closing]) = (text ++ closing).length := by
    rw [width_append, hlength, List.length_append]
    rfl
  refine ⟨read ++ [.closing], ?_, hwidth, ?_⟩
  · rw [hall]
    exact hread.closesFirst (steps behind)
  · have hblock := Block.blockExtent_append ⟨text, h, rfl⟩ behind
    rw [List.append_assoc, List.append_assoc, ← hahead, blockExtent_opening] at hblock
    rw [hblock, hwidth, List.append_assoc, List.length_append]
    rfl

private theorem blockExtent_cases (ahead : List UInt8) :
    (∃ text behind, ahead.drop 2 = text ++ (closing ++ behind) ∧ Inside text closing) ∨
      (¬ IsClosed (steps (ahead.drop 2)) ∧
        ∃ front, Innermost front (.opening :: steps (ahead.drop 2)) ∧
          blockExtent ahead = .unclosed (width front)) := by
  rcases exists_block_or_unclosed (List.prefix_append opening (ahead.drop 2)) with
    ⟨_, behind, hahead, text, htext, rfl⟩ | ⟨offset, hopen⟩
  · rw [List.append_assoc, List.append_assoc] at hahead
    exact .inl ⟨text, behind, List.append_cancel_left hahead, htext⟩
  · right
    have hextent := hopen.blockExtent_eq
    obtain ⟨behind, front, last, hfirst, hstays, hlast, hcomplete, rfl⟩ := hopen.exists_steps
    rw [steps_opening] at hfirst hlast
    rw [(List.cons.inj hfirst).2]
    refine ⟨hstays.not_isClosed, front, ?_, hextent⟩
    rw [← hfirst, hlast]
    exact hcomplete.innermost front

/-- Where the steps lead to the depth 0, the measure ends with the first of them that do. -/
theorem blockExtent_of_isClosed {ahead : List UInt8} (h : IsClosed (steps (ahead.drop 2))) :
    ∃ read, ClosesFirst read (steps (ahead.drop 2)) ∧
      ahead.drop 2 = read.flatMap Step.bytes ++ ahead.drop (2 + width read) ∧
      blockExtent ahead = .upTo (2 + width read) := by
  rcases blockExtent_cases ahead with ⟨text, behind, hahead, htext⟩ | ⟨hopen, -⟩
  · obtain ⟨read, hread, -, hextent⟩ := htext.closesFirst hahead
    refine ⟨read, hread, ?_, hextent⟩
    obtain ⟨more, hmore⟩ := hread.isPrefix
    have hbytes : read.flatMap Step.bytes ++ more.flatMap Step.bytes = ahead.drop 2 := by
      rw [← List.flatMap_append, hmore, flatMap_bytes_steps]
    rw [← List.drop_drop, ← hbytes, width, List.drop_left]
  · exact absurd h hopen

/-- Where they do not, the innermost of the opening marks that stay open is measured. -/
theorem blockExtent_of_not_isClosed {ahead : List UInt8}
    (h : ¬ IsClosed (steps (ahead.drop 2))) :
    ∃ front, Innermost front (.opening :: steps (ahead.drop 2)) ∧
      blockExtent ahead = .unclosed (width front) := by
  rcases blockExtent_cases ahead with ⟨text, behind, hahead, htext⟩ | ⟨-, hfront⟩
  · obtain ⟨read, hread, -, -⟩ := htext.closesFirst hahead
    exact absurd ⟨read, hread.isPrefix, hread.depth_eq⟩ h
  · exact hfront

/-- What is measured is a word of the grammar, but for its opening mark, and every such word is
measured. -/
theorem blockExtent_eq_upTo_iff {ahead : List UInt8} {n : Nat} :
    blockExtent ahead = .upTo n ↔
      ∃ mark text behind, ahead = mark ++ text ++ closing ++ behind ∧ mark.length = 2 ∧
        Inside text closing ∧ n = (mark ++ text ++ closing).length := by
  constructor
  · intro hn
    rcases blockExtent_cases ahead with ⟨text, behind, hahead, htext⟩ | ⟨-, front, -, hextent⟩
    · obtain ⟨read, -, hwidth, hextent⟩ := htext.closesFirst hahead
      obtain rfl := Extent.upTo.inj (hn.symm.trans hextent)
      have hmark : (ahead.take 2).length = 2 := by
        have hlength := congrArg List.length hahead
        simp only [List.length_drop, List.length_append, closing, List.length_cons] at hlength
        rw [List.length_take]
        omega
      refine ⟨ahead.take 2, text, behind, ?_, hmark, htext, ?_⟩
      · rw [List.append_assoc, List.append_assoc, ← hahead, List.take_append_drop]
      · rw [List.append_assoc, List.length_append, hmark, ← hwidth]
    · rw [hextent] at hn
      cases hn
  · rintro ⟨mark, text, behind, rfl, hmark, htext, rfl⟩
    have hahead : (mark ++ text ++ closing ++ behind).drop 2 = text ++ (closing ++ behind) := by
      rw [← hmark, List.append_assoc, List.append_assoc, List.drop_left]
    obtain ⟨read, -, hwidth, hextent⟩ := htext.closesFirst hahead
    have hlength : (mark ++ text ++ closing).length = 2 + (text ++ closing).length := by
      rw [List.append_assoc, List.length_append, hmark]
    rw [hextent, hwidth, hlength]

end Comment

theorem Scan.skip_eq_ok_iff {s s' : Scan} {e : Extent} :
    s.skip e = (.ok (), s') ↔
      ∃ n, e = .upTo n ∧ s' = { s with cursor := s.cursor.advanceBy n } := by
  cases e with
  | upTo length => simp [skip, eq_comm]
  | unclosed opener => simp [skip]

open Comment in
/-- A block comment is skipped from wherever the scan stands, and its first two bytes are not looked
at. It is over with the first steps that lead from the depth 1 to the depth 0, which are a sequence
of comments and other bytes and a closing mark. Without such steps everything is skipped, and the
failure is placed at the last of the opening marks that are never closed. -/
theorem Scan.skipComment_block (s : Scan) :
    let ahead := s.cursor.rest.drop 2
    let marked := Step.opening :: steps ahead
    let reached (n : Nat) : Scan := { s with cursor := s.cursor.advanceBy n }
    (IsClosed (steps ahead) → ∃ read, ClosesFirst read (steps ahead) ∧
      ahead = read.flatMap Step.bytes ++ (reached (2 + width read)).cursor.rest ∧
      s.skipComment .block = (.ok (), reached (2 + width read))) ∧
    (¬ IsClosed (steps ahead) → ∃ front, Innermost front marked ∧
      s.skipComment .block =
        (.error (s.failure .unclosedComment (s.cursor.advanceBy (width front)).position),
          { s with cursor := s.cursor.toEnd }) ∧
      ∀ bytes i, bytes.length ≤ 2 ^ 32 - 2 → s.cursor = (Cursor.ofBytes bytes).advanceBy i →
        ∀ other, OpenBehind other marked →
          (s.cursor.advanceBy (width other)).position ≤
            (s.cursor.advanceBy (width front)).position) ∧
    ∀ s', s.skipComment .block = (.ok (), s') ↔
      ∃ mark text behind, s.cursor.rest = mark ++ text ++ closing ++ behind ∧ mark.length = 2 ∧
        Inside text closing ∧ s' = reached (mark ++ text ++ closing).length := by
  intro ahead marked reached
  have hanswer : s.skipComment .block = s.skip (blockExtent s.cursor.rest) := rfl
  refine ⟨?_, ?_, ?_⟩
  · intro hclosed
    obtain ⟨read, hread, hbytes, hextent⟩ := blockExtent_of_isClosed hclosed
    refine ⟨read, hread, ?_, ?_⟩
    · rwa [Cursor.rest_advanceBy]
    · rw [hanswer, hextent]
      rfl
  · intro hopen
    obtain ⟨front, hinnermost, hextent⟩ := blockExtent_of_not_isClosed hopen
    refine ⟨front, hinnermost, ?_, ?_⟩
    · rw [hanswer, hextent]
      rfl
    · intro bytes i hn hcursor other hother
      -- The innermost of the marks left open is the last one, and places never go back.
      exact Cursor.position_advanceBy_le hn hcursor (hinnermost.greatest other hother)
  · intro s'
    rw [hanswer, skip_eq_ok_iff]
    constructor
    · rintro ⟨n, hn, rfl⟩
      obtain ⟨mark, text, behind, hrest, hmark, htext, rfl⟩ := blockExtent_eq_upTo_iff.1 hn
      exact ⟨mark, text, behind, hrest, hmark, htext, rfl⟩
    · rintro ⟨mark, text, behind, hrest, hmark, htext, rfl⟩
      exact ⟨_, blockExtent_eq_upTo_iff.2 ⟨mark, text, behind, hrest, hmark, htext, rfl⟩, rfl⟩

end Lexis
