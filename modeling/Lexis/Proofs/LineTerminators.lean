import Lexis.Proofs.LinePlaces

/-! Texts that differ only in how their lines end.
Every such text becomes the same text once all its endings are written as line feeds. This keeps the
lines, and it keeps the place of every byte but the carriage returns. -/
namespace Lexis

namespace Text

section
variable {α : Type} [DecidableEq α] [LineEndings α]

/-- The second text is the first, which has no carriage return, with each of its line feeds written
as an ending of any kind. -/
inductive Reterminated : List α → List α → Prop
  | nil : Reterminated [] []
  | keep {a text text'} (ha : isLineBreak a = false) (h : Reterminated text text') :
      Reterminated (a :: text) (a :: text')
  | ending {ending text text'} (hending : IsEnding ending text') (h : Reterminated text text') :
      Reterminated (LineEndings.lineFeed :: text) (ending ++ text')

def unified : List α → List α
  | [] => []
  | a :: text =>
    if a = LineEndings.carriageReturn then
      if text.head? = some LineEndings.lineFeed then unified text
      else LineEndings.lineFeed :: unified text
    else a :: unified text

@[simp] theorem unified_nil : unified ([] : List α) = [] := rfl

theorem unified_cons_of_ne {a : α} (ha : a ≠ LineEndings.carriageReturn) (text : List α) :
    unified (a :: text) = a :: unified text :=
  if_neg ha

theorem unified_carriageReturn_of_lineFeed {text : List α}
    (h : text.head? = some LineEndings.lineFeed) :
    unified (LineEndings.carriageReturn :: text) = unified text := by
  rw [unified, if_pos rfl, if_pos h]

theorem unified_carriageReturn {text : List α} (h : text.head? ≠ some LineEndings.lineFeed) :
    unified (LineEndings.carriageReturn :: text) = LineEndings.lineFeed :: unified text := by
  rw [unified, if_pos rfl, if_neg h]

/-- An element is left out, written as a line feed, or kept. -/
theorem unified_cons (a : α) (text : List α) :
    unified (a :: text) = unified text ∨
      unified (a :: text) = LineEndings.lineFeed :: unified text ∨
      unified (a :: text) = a :: unified text := by
  rw [unified]
  split
  · split
    · exact .inl rfl
    · exact .inr (.inl rfl)
  · exact .inr (.inr rfl)

theorem unified_append_of_unbroken {text : List α} (h : Unbroken text) (rest : List α) :
    unified (text ++ rest) = text ++ unified rest := by
  induction text with
  | nil => rfl
  | cons a text ih =>
    obtain ⟨ha, htext⟩ := List.forall_mem_cons.1 h
    rw [List.cons_append, unified_cons_of_ne (isLineBreak_eq_false_iff.1 ha).2, ih htext]
    rfl

theorem unified_of_unbroken {text : List α} (h : Unbroken text) : unified text = text := by
  rw [← List.append_nil text, unified_append_of_unbroken h, unified_nil]

/-- Unless a pair is divided, the parts of a text can be rewritten one by one. -/
theorem unified_append {after : List α} (h : after.head? ≠ some LineEndings.lineFeed)
    (front : List α) : unified (front ++ after) = unified front ++ unified after := by
  induction front with
  | nil => rfl
  | cons a front ih =>
    by_cases ha : a = LineEndings.carriageReturn
    · subst ha
      have hhead : (front ++ after).head? = some LineEndings.lineFeed ↔
          front.head? = some LineEndings.lineFeed := by
        cases front with
        | nil => simpa using h
        | cons b front => rfl
      by_cases hnext : front.head? = some LineEndings.lineFeed
      · rw [List.cons_append, unified_carriageReturn_of_lineFeed (hhead.2 hnext),
          unified_carriageReturn_of_lineFeed hnext, ih]
      · rw [List.cons_append, unified_carriageReturn (mt hhead.1 hnext),
          unified_carriageReturn hnext, ih, List.cons_append]
    · rw [List.cons_append, unified_cons_of_ne ha, unified_cons_of_ne ha, ih, List.cons_append]

section
variable [LineEndings.Distinct α]

theorem unified_lineFeed (text : List α) :
    unified (LineEndings.lineFeed :: text) = LineEndings.lineFeed :: unified text :=
  unified_cons_of_ne LineEndings.Distinct.ne text

private theorem head?_unified (text : List α) :
    (unified text).head? = text.head?.map fun a =>
      if a = LineEndings.carriageReturn then LineEndings.lineFeed else a := by
  cases text with
  | nil => rfl
  | cons a text =>
    by_cases ha : a = LineEndings.carriageReturn
    · subst ha
      by_cases hnext : text.head? = some LineEndings.lineFeed
      · obtain ⟨rest, rfl⟩ := List.head?_eq_some_iff.1 hnext
        rw [unified_carriageReturn_of_lineFeed hnext, unified_lineFeed]
        simp
      · rw [unified_carriageReturn hnext]
        simp
    · rw [unified_cons_of_ne ha]
      simp [ha]

theorem unified_eq_nil_iff {text : List α} : unified text = [] ↔ text = [] := by
  rw [← List.head?_eq_none_iff, head?_unified, Option.map_eq_none_iff, List.head?_eq_none_iff]

/-- Nothing else comes to stand in front, except that a line feed may stand for another ending. -/
theorem mem_head?_unified {a : α} {text : List α} (h : a ∈ (unified text).head?) :
    a = LineEndings.lineFeed ∨ a ∈ text.head? := by
  rw [head?_unified, Option.mem_def, Option.map_eq_some_iff] at h
  obtain ⟨b, hb, rfl⟩ := h
  split
  · exact .inl rfl
  · exact .inr hb

theorem unified_append_of_isEnding {ending rest : List α} (h : IsEnding ending rest) :
    unified (ending ++ rest) = LineEndings.lineFeed :: unified rest := by
  cases h with
  | lineFeed => exact unified_lineFeed rest
  | carriageReturn hafter => exact unified_carriageReturn hafter
  | both =>
    rw [List.cons_append, unified_carriageReturn_of_lineFeed rfl]
    exact unified_lineFeed rest

theorem unified_of_isEnding {ending rest : List α} (h : IsEnding ending rest) :
    unified ending = [LineEndings.lineFeed] := by
  have hend : IsEnding ending [] := by
    cases h with
    | lineFeed => exact .lineFeed
    | carriageReturn => exact .carriageReturn nofun
    | both => exact .both
  rw [← List.append_nil ending, unified_append_of_isEnding hend, unified_nil]

/-- Texts that differ only in their endings have one unified form. -/
theorem Reterminated.unified_eq {text text' : List α} (h : Reterminated text text') :
    unified text' = text := by
  induction h with
  | nil => rfl
  | keep ha _ ih => rw [unified_cons_of_ne (isLineBreak_eq_false_iff.1 ha).2, ih]
  | ending hending _ ih => rw [unified_append_of_isEnding hending, ih]

/-! The lines of a unified text. -/

def Line.unified (l : Line α) : Line α :=
  ⟨l.text, Text.unified l.ending⟩

/-- Nothing changes within the lines. -/
theorem Split.unified {ls : List (Line α)} (h : Split ls) :
    Split (ls.map Line.unified) ∧ joined (ls.map Line.unified) = Text.unified (joined ls) := by
  induction h with
  | nil => exact ⟨.nil, rfl⟩
  | last hne htext =>
    refine ⟨.last hne htext, ?_⟩
    rw [joined_cons, unified_append_of_unbroken htext, List.map_singleton, joined_cons]
    rfl
  | @cons text ending rest htext hending _ ih =>
    have hone : (Line.unified ⟨text, ending⟩).ending = [LineEndings.lineFeed] :=
      unified_of_isEnding hending
    constructor
    · rw [List.map_cons]
      refine .cons htext ?_ ih.1
      rw [show Text.unified ending = _ from hone]
      exact .lineFeed
    · rw [List.map_cons, joined_cons, joined_cons, unified_append_of_unbroken htext,
        unified_append_of_isEnding hending, hone, ih.2]
      rfl

/-- Lines are found by the same numbers. -/
theorem line?_unified (wanted : UInt32) (text : List α) :
    line? wanted (unified text) = line? wanted text := by
  obtain ⟨hsplit, hjoined⟩ := split_lines text
  obtain ⟨hsplit', hjoined'⟩ := hsplit.unified
  rw [← hjoined, ← hjoined', hsplit.line?_joined, hsplit'.line?_joined, List.getElem?_map,
    Option.map_map]
  rfl

end

theorem Reterminated.append {text text' front : List α} (hfront : Unbroken front)
    (h : Reterminated text text') : Reterminated (front ++ text) (front ++ text') := by
  induction front with
  | nil => exact h
  | cons a front ih =>
    obtain ⟨ha, hfront⟩ := List.forall_mem_cons.1 hfront
    exact .keep ha (ih hfront)

end

/-- Endings are encoded as endings. -/
theorem Reterminated.encode {text text' : List Char} (h : Reterminated text text') :
    Reterminated (encode text) (encode text') := by
  induction h with
  | nil => exact .nil
  | keep ha _ ih =>
    rw [encode_cons, encode_cons]
    exact ih.append fun b hb => isLineBreak_of_mem_utf8EncodeChar ha hb
  | ending hending _ ih =>
    rw [encode_cons, encode_append]
    exact .ending hending.encode ih

/-- A line is found by the same number in texts that differ only in their endings. -/
theorem Reterminated.lineOf?_eq {content content' : String}
    (h : Reterminated content.toList content'.toList) (number : UInt32) :
    lineOf? content number = lineOf? content' number := by
  rw [lineOf?, lineOf?, ← h.unified_eq, line?_unified]

end Text

/-! Places in a unified source. -/

namespace Position

private theorem past_congr {b : UInt8} (hb : b ≠ Byte.carriageReturn) (p : Position)
    (following following' : Option UInt8) : p.past b following = p.past b following' := by
  rw [past, past, endsLine, endsLine, beq_false_of_ne hb]
  rfl

private theorem past_lineFeed (p : Position) (following : Option UInt8) :
    p.past Byte.lineFeed following = ⟨p.line + 1, 1⟩ := rfl

/-- Where no pair is divided, the endings count alike. -/
theorem across_unified {after : List UInt8} (h : after.head? ≠ some Byte.lineFeed)
    (front after' : List UInt8) (p : Position) :
    p.across (Text.unified front) after' = p.across front after := by
  induction front generalizing p with
  | nil => rfl
  | cons b front ih =>
    by_cases hb : b = Byte.carriageReturn
    · subst hb
      by_cases hnext : front.head? = some Byte.lineFeed
      · -- The line feed sets the column, so that the carriage return before it leaves no trace.
        have hrest := ih (p.past Byte.carriageReturn (some Byte.lineFeed))
        obtain ⟨rest, rfl⟩ := List.head?_eq_some_iff.1 hnext
        have hunified : Text.unified (Byte.lineFeed :: rest) = Byte.lineFeed :: Text.unified rest :=
          Text.unified_lineFeed rest
        have hpair : Text.unified (Byte.carriageReturn :: Byte.lineFeed :: rest) =
            Text.unified (Byte.lineFeed :: rest) :=
          Text.unified_carriageReturn_of_lineFeed hnext
        rw [hpair, across, List.cons_append, List.head?_cons, ← hrest, hunified, across,
          across, past_lineFeed, past_lineFeed]
        rfl
      · have hlone : (front ++ after).head? ≠ some Byte.lineFeed := by
          cases front with
          | nil => exact h
          | cons c front => exact hnext
        have hends : endsLine Byte.carriageReturn (front ++ after).head? = true :=
          Bool.or_eq_true _ _ ▸ .inr (bne_iff_ne.2 hlone)
        have hunified : Text.unified (Byte.carriageReturn :: front) =
            Byte.lineFeed :: Text.unified front :=
          Text.unified_carriageReturn hnext
        rw [hunified, across, across, past_of_endsLine hends, past_lineFeed, ih]
    · have hunified : Text.unified (b :: front) = b :: Text.unified front :=
        Text.unified_cons_of_ne hb front
      rw [hunified, across, across, ih, past_congr hb]

/-- A byte behind which no pair is divided keeps its place. -/
theorem ofIndex_unified {after : List UInt8} (h : after.head? ≠ some Byte.lineFeed)
    (front : List UInt8) :
    ofIndex (Text.unified (front ++ after)) (Text.unified front).length =
      ofIndex (front ++ after) front.length := by
  have hunified : Text.unified (front ++ after) = Text.unified front ++ Text.unified after :=
    Text.unified_append h front
  by_cases hempty : front ++ after = []
  · obtain ⟨rfl, rfl⟩ := List.append_eq_nil_iff.1 hempty
    rfl
  · have hne : Text.unified front ++ Text.unified after ≠ [] := by
      rw [← hunified]
      exact mt Text.unified_eq_nil_iff.1 hempty
    rw [hunified, ofIndex_length_append hne, ofIndex_length_append hempty, across_unified h]

end Position

end Lexis
