import Lexis.Scan
import Lexis.Text.Utf8

/-! Reading a scan to its end.
The tokens are either collected, where the end of the source is one of them and a failure is the
whole answer, or listed, where the end is left out and a failure is the last item. -/
namespace Lexis.Scan

/-- Reads all tokens, the end included, behind those read before, of which the latest comes
first. -/
def tokensAfter (read : List Token) (s : Scan) : Except Failure (List Token) :=
  match h : s.readToken with
  | (.error failure, _) => .error failure
  | (.ok token, s') =>
    if hk : token.isEnd = true then .ok (token :: read).reverse
    else
      have := length_rest_readToken_lt h (by simpa using hk)
      tokensAfter (token :: read) s'
termination_by s.cursor.rest.length

def tokens (s : Scan) : Except Failure (List Token) :=
  s.tokensAfter []

theorem tokensAfter_of_error {s s' : Scan} {failure : Failure} {read : List Token}
    (h : s.readToken = (.error failure, s')) : s.tokensAfter read = .error failure := by
  rw [tokensAfter]
  split <;> simp_all

theorem tokensAfter_of_end {s s' : Scan} {token : Token} {read : List Token}
    (h : s.readToken = (.ok token, s')) (hk : token.isEnd = true) :
    s.tokensAfter read = .ok (token :: read).reverse := by
  rw [tokensAfter]
  split <;> simp_all

theorem tokensAfter_of_token {s s' : Scan} {token : Token} {read : List Token}
    (h : s.readToken = (.ok token, s')) (hk : token.isEnd = false) :
    s.tokensAfter read = s'.tokensAfter (token :: read) := by
  rw [tokensAfter]
  split <;> simp_all

theorem tokensAfter_eq (read : List Token) (s : Scan) :
    s.tokensAfter read = (s.tokens).map (read.reverse ++ ·) := by
  induction hn : s.cursor.rest.length using Nat.strongRecOn generalizing read s with
  | ind n ih =>
    subst hn
    rw [tokens]
    match h : s.readToken with
    | (.error failure, s') =>
      rw [tokensAfter_of_error h, tokensAfter_of_error h]
      rfl
    | (.ok token, s') =>
      cases hk : token.isEnd with
      | true =>
        rw [tokensAfter_of_end h hk, tokensAfter_of_end h hk]
        simp [Except.map]
      | false =>
        have hlt := length_rest_readToken_lt h hk
        rw [tokensAfter_of_token h hk, tokensAfter_of_token h hk, ih _ hlt (token :: read) s' rfl,
          ih _ hlt [token] s' rfl]
        cases s'.tokens <;> simp [Except.map]

theorem tokens_of_error {s s' : Scan} {failure : Failure}
    (h : s.readToken = (.error failure, s')) : s.tokens = .error failure :=
  tokensAfter_of_error h

theorem tokens_of_end {s s' : Scan} {token : Token}
    (h : s.readToken = (.ok token, s')) (hk : token.isEnd = true) : s.tokens = .ok [token] :=
  tokensAfter_of_end h hk

theorem tokens_of_token {s s' : Scan} {token : Token}
    (h : s.readToken = (.ok token, s')) (hk : token.isEnd = false) :
    s.tokens = (s'.tokens).map (token :: ·) := by
  rw [tokens, tokensAfter_of_token h hk, tokensAfter_eq]
  rfl

def itemBound (s : Scan) : Nat :=
  if s.finished then 0 else s.cursor.rest.length + 1

theorem itemBound_next?_lt {s s' : Scan} {item : Except Failure Token}
    (h : s.next? = (some item, s')) : s'.itemBound < s.itemBound := by
  simp only [next?] at h
  split at h
  · simp at h
  · next hf =>
    split at h
    · obtain ⟨-, rfl⟩ := Prod.mk.inj h
      simp [itemBound, hf]
    · next hr =>
      split at h
      · simp at h
      · next hk =>
        obtain ⟨-, rfl⟩ := Prod.mk.inj h
        have := length_rest_readToken_lt hr (by simpa using hk)
        have hs : s.itemBound = s.cursor.rest.length + 1 := if_neg hf
        rw [hs, itemBound]
        split <;> omega

def listAfter (listed : List (Except Failure Token)) (s : Scan) :
    List (Except Failure Token) × Scan :=
  match h : s.next? with
  | (none, s') => (listed.reverse, s')
  | (some item, s') =>
    have := itemBound_next?_lt h
    listAfter (item :: listed) s'
termination_by s.itemBound

def list (s : Scan) : List (Except Failure Token) × Scan :=
  s.listAfter []

theorem listAfter_of_none {s s' : Scan} {listed : List (Except Failure Token)}
    (h : s.next? = (none, s')) : s.listAfter listed = (listed.reverse, s') := by
  rw [listAfter]
  split <;> simp_all

theorem listAfter_of_some {s s' : Scan} {item : Except Failure Token}
    {listed : List (Except Failure Token)} (h : s.next? = (some item, s')) :
    s.listAfter listed = s'.listAfter (item :: listed) := by
  rw [listAfter]
  split <;> simp_all

theorem listAfter_eq (listed : List (Except Failure Token)) (s : Scan) :
    s.listAfter listed = (listed.reverse ++ s.list.1, s.list.2) := by
  induction hn : s.itemBound using Nat.strongRecOn generalizing listed s with
  | ind n ih =>
    subst hn
    rw [list]
    match h : s.next? with
    | (none, s') =>
      rw [listAfter_of_none h, listAfter_of_none h]
      simp
    | (some item, s') =>
      have hlt := itemBound_next?_lt h
      rw [listAfter_of_some h, listAfter_of_some h, ih _ hlt (item :: listed) s' rfl,
        ih _ hlt [item] s' rfl]
      simp

theorem list_of_none {s s' : Scan} (h : s.next? = (none, s')) : s.list = ([], s') :=
  listAfter_of_none h

theorem list_of_some {s s' : Scan} {item : Except Failure Token}
    (h : s.next? = (some item, s')) : s.list = (item :: s'.list.1, s'.list.2) := by
  rw [list, listAfter_of_some h, listAfter_eq]
  rfl

end Lexis.Scan

namespace Lexis

def tokenize (source : String) (name : Option String) : Except Failure (List Token) :=
  (Scan.ofBytes (Text.utf8 source) name).tokens

end Lexis
