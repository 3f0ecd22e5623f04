import Lexis.Proofs.TokenRun

/-! Calls on one scan, in any number and order.
Besides reading its tokens, a scan can be asked to list them, and to skip a comment or to read a
word or a number where none stands. One equation says all that a call changes. From it follows what
stays the same whatever is called: a failure, the end, the end of the list, and the source. -/
namespace Lexis

/-- No move leads backwards. -/
theorem Cursor.offset_le_offset_advanceBy (c : Cursor) (n : Nat) :
    c.offset ≤ (c.advanceBy n).offset := by
  have hbytes := congrArg List.length (c.bytes_advanceBy n)
  simp only [bytes, List.length_append, List.length_reverse, rest_advanceBy,
    List.length_drop] at hbytes
  rw [offset, offset]
  omega

namespace Scan

inductive Call
  | readToken
  | next
  | skipComment (form : Comment.Form)
  | readWord
  | readNumber
deriving DecidableEq, Repr

def after (s : Scan) : Call → Scan
  | .readToken => s.readToken.2
  | .next => s.next?.2
  | .skipComment form => (s.skipComment form).2
  | .readWord => s.readWord.2
  | .readNumber => s.readNumber.2

def afterAll (s : Scan) (calls : List Call) : Scan :=
  calls.foldl after s

/-- The outcome of the token that is read for a call, be it the answer or an item of the list. Once
the list is over, no token is read for it. -/
def tokenFor? (s : Scan) : Call → Option (Except Failure Token)
  | .readToken => some s.readToken.1
  | .next => if s.finished then none else some s.readToken.1
  | _ => none

def itemFor? (s : Scan) : Call → Option (Option (Except Failure Token))
  | .next => some s.next?.1
  | _ => none

/-- What is observed at the calls of a sequence, in their order. -/
def observed {α : Type} (observe : Scan → Call → Option α) (s : Scan) : List Call → List α
  | [] => []
  | call :: calls => (observe s call).toList ++ (s.after call).observed observe calls

/-! One call. -/

def isLast : Except Failure Token → Bool
  | .error _ => true
  | .ok token => token.isEnd

def item? : Except Failure Token → Option (Except Failure Token)
  | .error failure => some (.error failure)
  | .ok token => if token.isEnd then none else some (.ok token)

def failedAfter (s : Scan) (call : Call) : Option Failure :=
  match s.tokenFor? call with
  | some (.error failure) => some failure
  | _ => s.failed

def finishedAfter (s : Scan) : Call → Bool
  | .next => s.finished || isLast s.readToken.1
  | _ => s.finished

private theorem exists_skip_eq (s : Scan) (e : Extent) :
    ∃ n, (s.skip e).2 = { s with cursor := s.cursor.advanceBy n } := by
  cases e with
  | upTo length => exact ⟨length, rfl⟩
  | unclosed opener => exact ⟨s.cursor.rest.length, rfl⟩

private theorem exists_readLexeme_eq (s : Scan) :
    ∃ n, s.readLexeme.2 = { s with cursor := s.cursor.advanceBy n } := by
  obtain ⟨n, hskip⟩ := s.exists_skip_eq (Gap.extent s.cursor.rest)
  rw [readLexeme]
  cases hanswer : s.skip (Gap.extent s.cursor.rest) with
  | mk outcome s' =>
    rw [hanswer] at hskip
    obtain rfl : s' = { s with cursor := s.cursor.advanceBy n } := hskip
    cases outcome with
    | error failure => exact ⟨n, rfl⟩
    | ok =>
      refine ⟨n + (Reading.next (s.cursor.advanceBy n).rest).length, ?_⟩
      rw [← Cursor.advanceBy_advanceBy]
      rfl

private theorem exists_readToken_eq (s : Scan) :
    ∃ n, s.readToken.2 =
      { s with cursor := s.cursor.advanceBy n, failed := s.failedAfter .readToken } := by
  cases hfailed : s.failed with
  | some failure =>
    have hkept : s.failedAfter .readToken = s.failed := by
      rw [failedAfter, tokenFor?, readToken_of_failed hfailed, hfailed]
    refine ⟨0, ?_⟩
    rw [hkept, readToken_of_failed hfailed]
    rfl
  | none =>
    obtain ⟨n, hlexeme⟩ := s.exists_readLexeme_eq
    refine ⟨n, ?_⟩
    cases hanswer : s.readLexeme with
    | mk outcome s' =>
      rw [hanswer] at hlexeme
      obtain rfl : s' = { s with cursor := s.cursor.advanceBy n } := hlexeme
      cases outcome <;> simp only [failedAfter, tokenFor?, readToken, hfailed, hanswer]

theorem next?_of_finished {s : Scan} (h : s.finished = true) : s.next? = (none, s) :=
  if_pos h

/-- As long as the list is not over, its next item is the next token. -/
theorem next?_of_not_finished {s : Scan} (h : s.finished = false) :
    s.next? = (item? s.readToken.1, { s.readToken.2 with finished := isLast s.readToken.1 }) := by
  have hkept : s.readToken.2.finished = false := by
    obtain ⟨n, hread⟩ := s.exists_readToken_eq
    rw [hread, h]
  rw [next?, if_neg (by simp [h])]
  cases hanswer : s.readToken with
  | mk outcome s' =>
    rw [hanswer] at hkept
    cases outcome with
    | error failure => rfl
    | ok token =>
      have hsame : { s' with finished := false } = s' := by rw [← hkept]
      simp only [item?, isLast]
      cases token.isEnd with
      | true => rfl
      | false => rw [hsame]; rfl

/-- An item of the list is the token that is read for it, unless that is the end. -/
theorem next?_eq_bind (s : Scan) : s.next?.1 = (s.tokenFor? .next).bind item? := by
  rw [tokenFor?]
  cases hfinished : s.finished with
  | true =>
    rw [next?_of_finished hfinished]
    rfl
  | false =>
    rw [next?_of_not_finished hfinished]
    rfl

/-- All that a call changes: it moves the cursor forwards, it keeps the failure of a token that it
has read, and it may end the list. -/
theorem exists_after_eq (s : Scan) (call : Call) :
    ∃ n, s.after call =
      { s with
        cursor := s.cursor.advanceBy n
        failed := s.failedAfter call
        finished := s.finishedAfter call } := by
  cases call with
  | readToken => exact s.exists_readToken_eq
  | skipComment form => exact s.exists_skip_eq (Comment.extent form s.cursor.rest)
  | readWord => exact ⟨(Reading.word s.cursor.rest).length, rfl⟩
  | readNumber => exact ⟨(Reading.number s.cursor.rest).length, rfl⟩
  | next =>
    rw [after, failedAfter, tokenFor?, finishedAfter]
    cases hfinished : s.finished with
    | true =>
      rw [next?_of_finished hfinished]
      exact ⟨0, congrArg (fun done => { s with finished := done }) hfinished⟩
    | false =>
      obtain ⟨n, hread⟩ := s.exists_readToken_eq
      refine ⟨n, ?_⟩
      rw [next?_of_not_finished hfinished, hread]
      rfl

/-- A token that is read for a call is the next token, and but for the end of the list the call does
nothing else. -/
theorem after_of_tokenFor? {s : Scan} {call : Call} {outcome : Except Failure Token}
    (h : s.tokenFor? call = some outcome) :
    s.readToken.1 = outcome ∧ ∃ done, s.after call = { s.readToken.2 with finished := done } := by
  cases call with
  | readToken => exact ⟨Option.some.inj h, s.readToken.2.finished, rfl⟩
  | next =>
    rw [tokenFor?] at h
    cases hfinished : s.finished with
    | true =>
      rw [if_pos hfinished] at h
      cases h
    | false =>
      rw [if_neg (by simp [hfinished])] at h
      rw [after, next?_of_not_finished hfinished]
      exact ⟨Option.some.inj h, _, rfl⟩
  | skipComment | readWord | readNumber => cases h

/-! What no call changes. -/

def HasFailed (failure : Failure) (s : Scan) : Prop :=
  s.failed = some failure

structure AtEnd (p : Position) (s : Scan) : Prop where
  failed_eq : s.failed = none
  rest_eq : s.cursor.rest = []
  position_eq : s.cursor.position = p

theorem HasFailed.tokenFor? {s : Scan} {failure : Failure} (h : s.HasFailed failure) (call : Call) :
    ∀ outcome ∈ s.tokenFor? call, outcome = .error failure := by
  intro outcome houtcome
  rw [← (after_of_tokenFor? houtcome).1, readToken_of_failed h]

theorem HasFailed.after {s : Scan} {failure : Failure} (h : s.HasFailed failure) (call : Call) :
    (s.after call).HasFailed failure := by
  obtain ⟨n, hafter⟩ := s.exists_after_eq call
  rw [HasFailed, hafter, failedAfter]
  cases htoken : s.tokenFor? call with
  | none => exact h
  | some outcome =>
    obtain rfl := h.tokenFor? call outcome htoken
    rfl

theorem hasFailed_after {s : Scan} {call : Call} {failure : Failure}
    (h : s.tokenFor? call = some (.error failure)) : (s.after call).HasFailed failure := by
  obtain ⟨n, hafter⟩ := s.exists_after_eq call
  rw [HasFailed, hafter, failedAfter, h]

theorem AtEnd.readToken_eq {s : Scan} {p : Position} (h : s.AtEnd p) :
    s.readToken.1 = .ok ⟨.endOfFile, .none, p⟩ := by
  have hextent : Gap.extent s.cursor.rest = .upTo 0 := by
    rw [h.rest_eq]
    exact Gap.extent_of_clear Gap.clear_nil
  rw [readToken, h.failed_eq, readLexeme, hextent]
  simp only [skip, Cursor.advanceBy_zero, take, h.rest_eq, h.position_eq]
  rfl

theorem AtEnd.after {s : Scan} {p : Position} (h : s.AtEnd p) (call : Call) :
    (s.after call).AtEnd p := by
  obtain ⟨n, hafter⟩ := s.exists_after_eq call
  have hcursor := Cursor.advanceBy_of_rest_eq_nil h.rest_eq n
  have hfailed : s.failedAfter call = none := by
    rw [failedAfter]
    cases htoken : s.tokenFor? call with
    | none => exact h.failed_eq
    | some outcome =>
      obtain ⟨rfl, -⟩ := after_of_tokenFor? htoken
      rw [h.readToken_eq]
      exact h.failed_eq
  rw [hafter, hcursor]
  exact ⟨hfailed, h.rest_eq, h.position_eq⟩

private theorem eq_nil_of_next_eq_endOfFile {ahead : List UInt8} {l : Lexeme}
    (h : (Reading.next ahead).outcome = .ok l) (hend : l.kind = .endOfFile) : ahead = [] := by
  cases ahead with
  | nil => rfl
  | cons b rest =>
    exfalso
    rw [Reading.next] at h
    split at h
    · rw [Reading.word] at h
      split at h
      · cases h
      · obtain rfl := Except.ok.inj h
        rw [Lexeme.ofWord] at hend
        split at hend <;> cases hend
    · split at h
      · rw [Reading.number] at h
        split at h
        · obtain rfl := Except.ok.inj h
          cases hend
        · cases h
      · rw [Reading.symbol] at h
        split at h
        · obtain rfl := Except.ok.inj h
          cases hend
        · cases h

theorem atEnd_of_readToken {s s' : Scan} {token : Token} (h : s.readToken = (.ok token, s'))
    (hend : token.isEnd = true) : ∃ p, token = ⟨.endOfFile, .none, p⟩ ∧ s'.AtEnd p := by
  have hfailed : s.failed = none := by
    cases hfailed : s.failed with
    | none => rfl
    | some failure =>
      rw [readToken_of_failed hfailed] at h
      cases h
  have hlexeme := readLexeme_of_readToken h
  rw [readLexeme] at hlexeme
  cases hextent : Gap.extent s.cursor.rest with
  | unclosed opener =>
    rw [hextent] at hlexeme
    cases hlexeme
  | upTo length =>
    rw [hextent] at hlexeme
    simp only [skip, take] at hlexeme
    obtain ⟨htoken, rfl⟩ := Prod.mk.inj hlexeme
    cases houtcome : (Reading.next (s.cursor.advanceBy length).rest).outcome with
    | error fault =>
      rw [houtcome] at htoken
      cases htoken
    | ok l =>
      rw [houtcome] at htoken
      obtain rfl := Except.ok.inj htoken
      have hnil := eq_nil_of_next_eq_endOfFile houtcome (of_decide_eq_true hend)
      rw [hnil] at houtcome ⊢
      obtain rfl := Except.ok.inj houtcome
      refine ⟨_, rfl, hfailed, ?_, ?_⟩
      · rw [Cursor.rest_advanceBy, hnil, List.drop_nil]
      · rw [Cursor.advanceBy_of_rest_eq_nil hnil]

theorem atEnd_after {s : Scan} {call : Call} {token : Token}
    (h : s.tokenFor? call = some (.ok token)) (hend : token.isEnd = true) :
    ∃ p, token = ⟨.endOfFile, .none, p⟩ ∧ (s.after call).AtEnd p := by
  obtain ⟨hread, done, hafter⟩ := after_of_tokenFor? h
  have hread : s.readToken = (.ok token, s.readToken.2) := Prod.ext hread rfl
  obtain ⟨p, htoken, hatEnd⟩ := atEnd_of_readToken hread hend
  rw [hafter]
  exact ⟨p, htoken, hatEnd.failed_eq, hatEnd.rest_eq, hatEnd.position_eq⟩

theorem AtEnd.tokenFor? {s : Scan} {p : Position} (h : s.AtEnd p) (call : Call) :
    ∀ outcome ∈ s.tokenFor? call, outcome = .ok ⟨.endOfFile, .none, p⟩ := by
  intro outcome houtcome
  rw [← (after_of_tokenFor? houtcome).1, h.readToken_eq]

theorem finished_after {s : Scan} (h : s.finished = true) (call : Call) :
    (s.after call).finished = true := by
  obtain ⟨n, hafter⟩ := s.exists_after_eq call
  rw [hafter]
  cases call with
  | next => rw [finishedAfter, h, Bool.true_or]
  | readToken | skipComment | readWord | readNumber => exact h

theorem itemFor?_of_finished {s : Scan} (h : s.finished = true) (call : Call) :
    ∀ item ∈ s.itemFor? call, item = none := by
  intro item hitem
  cases call with
  | next =>
    obtain rfl := Option.some.inj hitem
    rw [next?_of_finished h]
  | readToken | skipComment | readWord | readNumber => cases hitem

private theorem isLast_of_item? {outcome : Except Failure Token}
    (h : item? outcome = none ∨ ∃ failure, item? outcome = some (.error failure)) :
    isLast outcome = true := by
  cases outcome with
  | error failure => rfl
  | ok token =>
    cases hend : token.isEnd with
    | true => exact hend
    | false =>
      rw [item?, hend] at h
      rcases h with h | ⟨failure, h⟩ <;> cases h

/-- The list is over once an item is missing or is a failure. -/
theorem finished_of_itemFor? {s : Scan} {call : Call} {item : Option (Except Failure Token)}
    (h : s.itemFor? call = some item)
    (hlast : item = none ∨ ∃ failure, item = some (.error failure)) :
    (s.after call).finished = true := by
  cases call with
  | readToken | skipComment | readWord | readNumber => cases h
  | next =>
    cases hfinished : s.finished with
    | true => exact finished_after hfinished .next
    | false =>
      obtain rfl := Option.some.inj h
      rw [next?_of_not_finished hfinished] at hlast
      rw [after, next?_of_not_finished hfinished]
      exact isLast_of_item? hlast

/-! Sequences of calls. -/

theorem afterAll_append (s : Scan) (front back : List Call) :
    s.afterAll (front ++ back) = (s.afterAll front).afterAll back :=
  List.foldl_append

section
variable {α : Type} {observe : Scan → Call → Option α} {K : Scan → Prop} {a : α}

/-- What is settled at every scan of a kind that all calls keep is settled for good. -/
theorem observed_of_settled (hkept : ∀ s call, K s → K (s.after call))
    (hsettled : ∀ s call, K s → ∀ b ∈ observe s call, b = a) {s : Scan} (h : K s)
    (calls : List Call) : ∀ b ∈ s.observed observe calls, b = a := by
  induction calls generalizing s with
  | nil => exact nofun
  | cons call calls ih =>
    intro b hb
    rcases List.mem_append.1 hb with hb | hb
    · exact hsettled s call h b (Option.mem_toList.1 hb)
    · exact ih (hkept s call h) b hb

/-- Behind an observation that settles all later ones, these are what it has settled. -/
theorem observed_behind {P : α → Prop} (hkept : ∀ s call, K s → K (s.after call))
    (hsettled : ∀ s call, K s → ∀ b ∈ observe s call, b = a)
    (hsettles : ∀ s call, ∀ b ∈ observe s call, P b → K (s.after call)) {s : Scan}
    {calls : List Call} {front back : List α} {x : α}
    (h : s.observed observe calls = front ++ x :: back) (hx : P x) : ∀ b ∈ back, b = a := by
  induction calls generalizing s front with
  | nil => cases front <;> cases h
  | cons call calls ih =>
    rw [observed] at h
    cases hobserved : observe s call with
    | none =>
      rw [hobserved] at h
      exact ih h
    | some y =>
      rw [hobserved] at h
      cases front with
      | nil =>
        obtain ⟨rfl, rfl⟩ := List.cons.inj h
        exact observed_of_settled hkept hsettled (hsettles s call y hobserved hx) calls
      | cons z front => exact ih (List.cons.inj h).2

end

theorem exists_afterAll_eq (s : Scan) (calls : List Call) :
    (∃ n, (s.afterAll calls).cursor = s.cursor.advanceBy n) ∧
      (s.afterAll calls).source = s.source := by
  induction calls generalizing s with
  | nil => exact ⟨⟨0, rfl⟩, rfl⟩
  | cons call calls ih =>
    obtain ⟨n, hafter⟩ := s.exists_after_eq call
    have hcursor : (s.after call).cursor = s.cursor.advanceBy n := by rw [hafter]
    have hsource : (s.after call).source = s.source := by rw [hafter]
    obtain ⟨⟨m, hbehind⟩, hsame⟩ := ih (s.after call)
    rw [hcursor, Cursor.advanceBy_advanceBy] at hbehind
    exact ⟨⟨n + m, hbehind⟩, hsame.trans hsource⟩

/-- Where every token could be read, the scan has not failed. -/
theorem failed_afterAll {s : Scan} {calls : List Call} (h : s.failed = none)
    (htokens : ∀ failure, .error failure ∉ s.observed tokenFor? calls) :
    (s.afterAll calls).failed = none := by
  induction calls generalizing s with
  | nil => exact h
  | cons call calls ih =>
    obtain ⟨n, hafter⟩ := s.exists_after_eq call
    apply ih
    · rw [hafter, failedAfter]
      cases htoken : s.tokenFor? call with
      | none => exact h
      | some outcome =>
        cases outcome with
        | ok token => exact h
        | error failure =>
          exact absurd (List.mem_append_left _ (Option.mem_toList.2 htoken)) (htokens failure)
    · exact fun failure hmem => htokens failure (List.mem_append_right _ hmem)

/-- Tokens are read without a look at the list. -/
theorem readToken_congr {s s' : Scan} (hcursor : s.cursor = s'.cursor)
    (hsource : s.source = s'.source) (hfailed : s.failed = s'.failed) :
    s.readToken.1 = s'.readToken.1 := by
  obtain ⟨cursor, source, failed, done⟩ := s
  obtain ⟨cursor', source', failed', done'⟩ := s'
  subst hcursor hsource hfailed
  cases failed with
  | some failure => rfl
  | none =>
    simp only [readToken, readLexeme, skip]
    cases Gap.extent cursor.rest with
    | unclosed opener => rfl
    | upTo length =>
      simp only [take]
      cases (Reading.next (cursor.advanceBy length).rest).outcome <;> rfl

section
variable {s : Scan} {calls : List Call}

/-- Behind a token that could not be read all tokens have its failure for their outcome. -/
theorem observed_tokens_behind_error {front back : List (Except Failure Token)} {failure : Failure}
    (h : s.observed tokenFor? calls = front ++ .error failure :: back) :
    ∀ outcome ∈ back, outcome = .error failure := by
  apply observed_behind (K := HasFailed failure) (P := (· = .error failure)) _ _ _ h rfl
  · exact fun _ call h => h.after call
  · exact fun _ call h => h.tokenFor? call
  · rintro s call _ houtcome rfl
    exact hasFailed_after houtcome

/-- Behind the end all tokens are the end, at the same place. -/
theorem observed_tokens_behind_end {front back : List (Except Failure Token)} {token : Token}
    (h : s.observed tokenFor? calls = front ++ .ok token :: back) (hend : token.isEnd = true) :
    ∀ outcome ∈ back, outcome = .ok token := by
  apply observed_behind (K := fun s => ∃ p, token = ⟨.endOfFile, .none, p⟩ ∧ s.AtEnd p)
    (P := (· = .ok token)) _ _ _ h rfl
  · rintro s call ⟨p, htoken, hatEnd⟩
    exact ⟨p, htoken, hatEnd.after call⟩
  · rintro s call ⟨p, rfl, hatEnd⟩
    exact hatEnd.tokenFor? call
  · rintro s call _ houtcome rfl
    exact atEnd_after houtcome hend

/-- Behind a failure in the list, or a missing item, nothing is listed. -/
theorem observed_items_behind_last {front back : List (Option (Except Failure Token))}
    {item : Option (Except Failure Token)} (h : s.observed itemFor? calls = front ++ item :: back)
    (hlast : item = none ∨ ∃ failure, item = some (.error failure)) :
    ∀ later ∈ back, later = none := by
  apply observed_behind (K := fun s => s.finished = true)
    (P := fun item => item = none ∨ ∃ failure, item = some (.error failure)) _ _ _ h hlast
  · exact fun _ call h => finished_after h call
  · exact fun _ call h => itemFor?_of_finished h call
  · exact fun _ _ _ hitem hlast => finished_of_itemFor? hitem hlast

theorem offset_le_offset_afterAll (s : Scan) (calls : List Call) :
    s.cursor.offset ≤ (s.afterAll calls).cursor.offset := by
  obtain ⟨⟨n, hcursor⟩, -⟩ := s.exists_afterAll_eq calls
  rw [hcursor]
  exact Cursor.offset_le_offset_advanceBy s.cursor n

end

/-- What holds on a scan after any calls in any order. A token that could not be read is the outcome
of all tokens that are read later. Until then every token is read where the scan stands, whatever
has gone wrong there in comments, words and numbers. The list is over for good behind a failure and
behind a missing item. The end stays the end. The source stays as it is, and the scan never goes
back in it. Every item of the list is a token that has been read for it. -/
theorem observed_afterAll (bytes : List UInt8) (name : Option String) (i : Nat)
    (calls : List Call) :
    let s := atIndex bytes name i
    let s' := s.afterAll calls
    let tokens := s.observed tokenFor? calls
    let items := s.observed itemFor? calls
    (∀ front failure back, tokens = front ++ .error failure :: back →
      ∀ outcome ∈ back, outcome = .error failure) ∧
    ((∀ failure, .error failure ∉ tokens) →
      ∃ j, s'.cursor = (atIndex bytes name j).cursor ∧
        s'.readToken.1 = (atIndex bytes name j).readToken.1 ∧
        (s'.finished = false → s'.next?.1 = (atIndex bytes name j).next?.1)) ∧
    (∀ front item back, items = front ++ item :: back →
      (item = none ∨ ∃ failure, item = some (.error failure)) → ∀ later ∈ back, later = none) ∧
    (∀ front token back, tokens = front ++ .ok token :: back → token.isEnd = true →
      ∀ outcome ∈ back, outcome = .ok token) ∧
    (s'.bytes = bytes ∧ s'.source = name.getD defaultSource ∧
      ∀ front back, calls = front ++ back →
        (s.afterAll front).cursor.offset ≤ s'.cursor.offset) ∧
    s'.next?.1 = (s'.tokenFor? .next).bind item? := by
  intro s s' tokens items
  obtain ⟨⟨n, hcursor⟩, hsource⟩ := s.exists_afterAll_eq calls
  refine ⟨?_, ?_, ?_, ?_, ⟨?_, hsource, ?_⟩, s'.next?_eq_bind⟩
  · exact fun _ _ _ htokens => observed_tokens_behind_error htokens
  · intro htokens
    -- Without a failure the calls have done nothing but move the cursor.
    have hplace : s'.cursor = (atIndex bytes name (i + n)).cursor :=
      hcursor.trans (advanceBy_atIndex bytes name i n)
    have hfailed : s'.failed = none := failed_afterAll rfl htokens
    have hread := readToken_congr hplace hsource hfailed
    refine ⟨i + n, hplace, hread, ?_⟩
    intro hfinished
    rw [next?_of_not_finished hfinished, next?_of_not_finished rfl, hread]
  · exact fun _ _ _ hitems hlast => observed_items_behind_last hitems hlast
  · exact fun _ _ _ htokens hend => observed_tokens_behind_end htokens hend
  · rw [Scan.bytes, hcursor, Cursor.bytes_advanceBy]
    exact Cursor.bytes_advanceBy _ i
  · rintro front back rfl
    change _ ≤ (s.afterAll (front ++ back)).cursor.offset
    rw [afterAll_append]
    exact offset_le_offset_afterAll _ back

/-- A quote is illegal, and skipping it as a line comment leads to the end of the source. The next
item of the list is still the failure, and not the end. -/
theorem observed_afterAll_quote :
    let bytes := Text.utf8 "\"a"
    let failure : Failure := ⟨.illegalCharacter '"' 0x22, some ⟨1, 1⟩, defaultSource⟩
    let s := (ofBytes bytes none).afterAll [.readToken, .skipComment .line]
    (ofBytes bytes none).readToken.1 = .error failure ∧ s.cursor.rest = [] ∧
      s.next?.1 = some (.error failure) := by
  intro bytes failure s
  obtain ⟨hblank, hstart⟩ := not_startsLexeme (b := 0x22) (.inl rfl)
  have hoffence : Offence [0x22] (Text.utf8 "a") (.illegalCharacter '"' 0x22) 0 :=
    .illegal hblank hstart rfl
  have hfirst : (ofBytes bytes none).readToken.1 = .error failure := by
    have hstep : ∃ s', (atIndex bytes none 0).readToken = (.error failure, s') :=
      readToken_of_offence (Nat.zero_le _) rfl .nil hoffence none
    obtain ⟨s', hread⟩ := hstep
    exact congrArg Prod.fst hread
  have hfinished : s.finished = false := by decide +kernel
  obtain ⟨herror, -⟩ := observed_afterAll bytes none 0 [.readToken, .skipComment .line, .readToken]
  have htokens : (ofBytes bytes none).observed tokenFor?
      [.readToken, .skipComment .line, .readToken] = [] ++ .error failure :: [s.readToken.1] :=
    congrArg (· :: [s.readToken.1]) hfirst
  have hread := herror _ _ _ htokens _ (List.mem_singleton_self _)
  refine ⟨hfirst, by decide +kernel, ?_⟩
  rw [next?_of_not_finished hfinished, hread]
  rfl

end Scan

end Lexis
