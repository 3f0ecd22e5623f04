import Lexis.Token.Basic

/-! The two forms in which tokens are written out. -/
namespace Lexis.Dump

def texts (tokens : List Token) : String :=
  " ".intercalate ((tokens.filter fun t => !t.isEnd).map Token.text) ++ "\n"

def line (position : Position) (kind : Kind) : String :=
  toString position ++ " " ++ kind.name ++ "\n"

end Lexis.Dump
