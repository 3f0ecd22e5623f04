/-! The reserved words. -/
namespace Lexis

inductive Reserved where
  | andWord
  | breakWord
  | continueWord
  | elseWord
  | elsifWord
  | exitWord
  | falseWord
  | forWord
  | funcWord
  | ifWord
  | inWord
  | orWord
  | printWord
  | printlnWord
  | rangeWord
  | returnWord
  | trueWord
  | voidWord
  | whileWord
deriving DecidableEq, Repr

namespace Reserved

def spelling : Reserved → String
  | andWord => "and"
  | breakWord => "break"
  | continueWord => "continue"
  | elseWord => "else"
  | elsifWord => "elsif"
  | exitWord => "exit"
  | falseWord => "false"
  | forWord => "for"
  | funcWord => "func"
  | ifWord => "if"
  | inWord => "in"
  | orWord => "or"
  | printWord => "print"
  | printlnWord => "println"
  | rangeWord => "range"
  | returnWord => "return"
  | trueWord => "true"
  | voidWord => "void"
  | whileWord => "while"

def all : List Reserved :=
  [andWord, breakWord, continueWord, elseWord, elsifWord, exitWord, falseWord, forWord, funcWord,
    ifWord, inWord, orWord, printWord, printlnWord, rangeWord, returnWord, trueWord, voidWord,
    whileWord]

def ofSpelling? (word : String) : Option Reserved :=
  all.find? fun r => r.spelling == word

theorem mem_all (r : Reserved) : r ∈ all := by
  cases r <;> simp [all]

theorem spelling_injective {r s : Reserved} (h : r.spelling = s.spelling) : r = s := by
  cases r <;> cases s <;> first | rfl | simp [spelling] at h

theorem ofSpelling?_eq_some_iff {word : String} {r : Reserved} :
    ofSpelling? word = some r ↔ r.spelling = word := by
  constructor
  · intro h
    simpa using List.find?_some h
  · rintro rfl
    cases h : ofSpelling? r.spelling with
    | none => simpa using List.find?_eq_none.1 h r (mem_all r)
    | some s => rw [spelling_injective (by simpa using List.find?_some h : s.spelling = r.spelling)]

theorem ofSpelling?_eq_none_iff {word : String} :
    ofSpelling? word = none ↔ ∀ r : Reserved, r.spelling ≠ word := by
  rw [Option.eq_none_iff_forall_ne_some]
  exact forall_congr' fun r => not_congr ofSpelling?_eq_some_iff

end Reserved

end Lexis
