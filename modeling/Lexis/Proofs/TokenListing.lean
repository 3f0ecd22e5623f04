import Lexis.Proofs.CallSequences
import Lexis.Proofs.Rejection

/-! The list of the tokens and the collection of them.
The list leaves the end out and keeps the tokens before a failure. The collection keeps the end and
drops the tokens before a failure. Both read the same run, so that each tells the other. -/
namespace Lexis.Scan

/-- Asking for the next item until there is none gives these items. -/
inductive Lists : Scan → List (Except Failure Token) → Scan → Prop
  | nil {s s'} (hlast : s.next? = (none, s')) : Lists s [] s'
  | cons {s s' s'' item items} (hitem : s.next? = (some item, s')) (hbehind : Lists s' items s'') :
      Lists s (item :: items) s''

theorem Lists.list_eq {s s' : Scan} {items : List (Except Failure Token)} (h : s.Lists items s') :
    s.list = (items, s') := by
  induction h with
  | nil hlast => exact list_of_none hlast
  | cons hitem _ ih => rw [list_of_some hitem, ih]

/-- Whatever has been asked of a scan before, its list comes to an end. -/
theorem lists_list (s : Scan) : s.Lists s.list.1 s.list.2 := by
  induction hn : s.itemBound using Nat.strongRecOn generalizing s with
  | ind n ih =>
    subst hn
    cases h : s.next? with
    | mk item? s' =>
      cases item? with
      | none =>
        rw [list_of_none h]
        exact .nil h
      | some item =>
        rw [list_of_some h]
        exact .cons h (ih _ (itemBound_next?_lt h) s' rfl)

theorem finished_of_readToken {s s' : Scan} {outcome : Except Failure Token}
    (h : s.readToken = (outcome, s')) : s'.finished = s.finished := by
  obtain ⟨n, hafter⟩ := s.exists_after_eq .readToken
  have hread : s.after .readToken = s' := congrArg Prod.snd h
  rw [← hread, hafter]
  rfl

theorem next?_of_token {s s' : Scan} {token : Token} (hopen : s.finished = false)
    (h : s.readToken = (.ok token, s')) (hkind : token.isEnd = false) :
    s.next? = (some (.ok token), s') := by
  rw [next?, if_neg (by simp [hopen]), h]
  exact if_neg (by simp [hkind])

/-- The list of a run: its tokens, and the failure if there is one. -/
theorem Run.lists {s : Scan} {tokens : List Token} {outcome : Except Failure Token}
    (h : s.Run tokens outcome) (hopen : s.finished = false) :
    ∃ s', s.Lists (tokens.map .ok ++ (item? outcome).toList) s' := by
  obtain ⟨s', s'', hreads, hlast, hended⟩ := h
  induction hreads with
  | nil =>
    have hnext := next?_of_not_finished hopen
    rw [hlast] at hnext
    cases outcome with
    | error failure => exact ⟨_, .cons hnext (.nil (next?_of_finished rfl))⟩
    | ok last =>
      rw [item?, if_pos (hended last s'' hlast)] at hnext ⊢
      exact ⟨_, .nil hnext⟩
  | cons hstep hkind _ ih =>
    have hopen' := (finished_of_readToken hstep).trans hopen
    obtain ⟨last, hbehind⟩ := ih hopen' hlast hended
    exact ⟨last, .cons (next?_of_token hopen hstep hkind) hbehind⟩

/-! The items of a run, and what collecting its tokens gives. -/

private theorem filterMap_toOption_map_ok (tokens : List Token) :
    (tokens.map .ok : List (Except Failure Token)).filterMap Except.toOption = tokens := by
  rw [List.filterMap_map]
  exact List.filterMap_some

private theorem map_ok_injective {tokens tokens' : List Token}
    (h : (tokens.map .ok : List (Except Failure Token)) = tokens'.map .ok) : tokens = tokens' := by
  rw [← filterMap_toOption_map_ok tokens, h, filterMap_toOption_map_ok]

private theorem map_ok_ne_append_error (tokens tokens' : List Token) (failure : Failure) :
    tokens.map Except.ok ≠ tokens'.map Except.ok ++ [Except.error failure] := by
  intro h
  have hmem : Except.error failure ∈ tokens.map Except.ok := by
    rw [h]
    exact List.mem_append_right _ (List.mem_singleton_self _)
  obtain ⟨_, -, hok⟩ := List.mem_map.1 hmem
  cases hok

section
variable {tokens : List Token} {outcome : Except Failure Token} {last : Token}

private theorem filterMap_toOption_items (hend : last.isEnd = true)
    (houtcome : ∀ token, outcome = .ok token → token = last) :
    (tokens.map Except.ok ++ (item? outcome).toList).filterMap Except.toOption = tokens := by
  have hbehind : (item? outcome).toList.filterMap Except.toOption = [] := by
    cases outcome with
    | error failure => rfl
    | ok token =>
      obtain rfl := houtcome token rfl
      rw [item?, if_pos hend]
      rfl
  rw [List.filterMap_append, hbehind, List.append_nil, filterMap_toOption_map_ok]

private theorem collected_eq_ok_iff (hkinds : ∀ token ∈ tokens, token.isEnd = false)
    (hend : last.isEnd = true) (houtcome : ∀ token, outcome = .ok token → token = last)
    (read : List Token) :
    outcome.map (fun last => tokens ++ [last]) = .ok read ↔
      ∃ tokens' : List Token, (∀ token ∈ tokens', token.isEnd = false) ∧
        read = tokens' ++ [last] ∧
        tokens.map .ok ++ (item? outcome).toList = tokens'.map .ok := by
  cases outcome with
  | ok token =>
    obtain rfl := houtcome token rfl
    rw [item?, if_pos hend, Option.toList_none, List.append_nil]
    constructor
    · intro hread
      exact ⟨tokens, hkinds, (Except.ok.inj hread).symm, rfl⟩
    · rintro ⟨tokens', -, rfl, hitems⟩
      rw [map_ok_injective hitems]
      rfl
  | error failure =>
    constructor
    · intro hread
      cases hread
    · rintro ⟨tokens', -, -, hitems⟩
      exact absurd hitems.symm (map_ok_ne_append_error tokens' tokens failure)

private theorem collected_eq_error_iff (hkinds : ∀ token ∈ tokens, token.isEnd = false)
    (hend : last.isEnd = true) (houtcome : ∀ token, outcome = .ok token → token = last)
    (failure : Failure) :
    outcome.map (fun last => tokens ++ [last]) = .error failure ↔
      ∃ tokens' : List Token, (∀ token ∈ tokens', token.isEnd = false) ∧
        tokens.map .ok ++ (item? outcome).toList = tokens'.map .ok ++ [.error failure] := by
  cases outcome with
  | ok token =>
    obtain rfl := houtcome token rfl
    rw [item?, if_pos hend, Option.toList_none, List.append_nil]
    constructor
    · intro hfailure
      cases hfailure
    · rintro ⟨tokens', -, hitems⟩
      exact absurd hitems (map_ok_ne_append_error tokens tokens' failure)
  | error failure' =>
    constructor
    · intro hfailure
      obtain rfl := Except.error.inj hfailure
      exact ⟨tokens, hkinds, rfl⟩
    · rintro ⟨tokens', -, hitems⟩
      exact congrArg _ (Except.error.inj (List.singleton_inj.1 (List.append_inj' hitems rfl).2))

end

/-- The list of a text comes to an end, and it tells what collecting the tokens gives. Collecting
gives tokens exactly if these are the items of the list, none of them a failure, and then the end.
It gives a failure exactly if this is the last item, and the only one that is no token. The tokens
in the list are those that are read one after the other before the end or the failure. -/
theorem lists_iff_tokenize (source : String) (name : Option String) :
    let bytes := Text.utf8 source
    let last : Token := ⟨.endOfFile, .none, .ofIndex bytes bytes.length⟩
    ∃ items s', (ofBytes bytes name).Lists items s' ∧ (ofBytes bytes name).list = (items, s') ∧
      (∀ read, tokenize source name = .ok read ↔
        ∃ tokens : List Token, (∀ token ∈ tokens, token.isEnd = false) ∧
          read = tokens ++ [last] ∧ items = tokens.map .ok) ∧
      (∀ failure, tokenize source name = .error failure ↔
        ∃ tokens : List Token, (∀ token ∈ tokens, token.isEnd = false) ∧
          items = tokens.map .ok ++ [.error failure]) ∧
      ∃ outcome, (ofBytes bytes name).Run (items.filterMap Except.toOption) outcome ∧
        ∀ token, outcome = .ok token → token = last := by
  intro bytes last
  -- The list and the collected tokens are both read off the only run of the source.
  obtain ⟨tokens, outcome, hrun⟩ := exists_run bytes name
  obtain ⟨s', hlists⟩ := hrun.lists rfl
  have hcollected : tokenize source name = outcome.map (tokens ++ [·]) := hrun.tokens_eq
  have hkinds : ∀ token ∈ tokens, token.isEnd = false := by
    obtain ⟨_, _, hreads, -⟩ := hrun
    exact hreads.isEnd_eq_false
  have houtcome : ∀ token, outcome = .ok token → token = last := by
    rintro token rfl
    rcases hrun.fits_or_rejected with ⟨_, -, -, -, hlast⟩ | ⟨_, _, _, _, _, -, -, hfailure⟩
    · exact Except.ok.inj hlast
    · cases hfailure
  refine ⟨_, s', hlists, hlists.list_eq, ?_, ?_, outcome, ?_, houtcome⟩
  · rw [hcollected]
    exact collected_eq_ok_iff hkinds rfl houtcome
  · rw [hcollected]
    exact collected_eq_error_iff hkinds rfl houtcome
  · rwa [filterMap_toOption_items rfl houtcome]

end Lexis.Scan
