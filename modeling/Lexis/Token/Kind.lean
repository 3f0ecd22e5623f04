import Lexis.Token.Reserved
import Lexis.Token.Symbol

/-! The kinds of tokens and their names. -/
namespace Lexis

/-- The kind of a token. Booleans, characters, strings and decimals belong to the language, but a
scan produces none of them. -/
inductive Kind where
  | endOfFile
  | identifier
  | boolean
  | character
  | string
  | number
  | decimal
  | reserved (word : Reserved)
  | symbol (symbol : Symbol)
deriving DecidableEq, Repr

namespace Kind

def name : Kind → String
  | endOfFile => "end-of-file"
  | identifier => "identifier"
  | boolean => "boolean"
  | character => "character"
  | string => "string"
  | number => "number"
  | decimal => "decimal"
  | symbol .emptyArray => "array"
  | reserved .andWord => "'and'"
  | reserved .breakWord => "'break'"
  | reserved .continueWord => "'continue'"
  | reserved .elseWord => "'else'"
  | reserved .elsifWord => "'elsif'"
  | reserved .exitWord => "'exit'"
  | reserved .falseWord => "'false'"
  | reserved .forWord => "'for'"
  | reserved .funcWord => "'func'"
  | reserved .ifWord => "'if'"
  | reserved .inWord => "'in'"
  | reserved .orWord => "'or'"
  | reserved .printWord => "'print'"
  | reserved .printlnWord => "'println'"
  | reserved .rangeWord => "'range'"
  | reserved .returnWord => "'return'"
  | reserved .trueWord => "'true'"
  | reserved .voidWord => "'void'"
  | reserved .whileWord => "'while'"
  | symbol .assign => "'='"
  | symbol .equals => "'=='"
  | symbol .greaterEquals => "'>='"
  | symbol .greater => "'>'"
  | symbol .lessEquals => "'<='"
  | symbol .less => "'<'"
  | symbol .notEquals => "'!='"
  | symbol .negation => "'!'"
  | symbol .minus => "'-'"
  | symbol .plus => "'+'"
  | symbol .divide => "'/'"
  | symbol .times => "'*'"
  | symbol .modulo => "'%'"
  | symbol .dot => "'.'"
  | symbol .openBracket => "'['"
  | symbol .closeBracket => "']'"
  | symbol .comma => "','"
  | symbol .openParen => "'('"
  | symbol .closeParen => "')'"
  | symbol .openCurly => "'\x7b'"
  | symbol .closeCurly => "'\x7d'"
  | symbol .arrow => "'=>'"
  | symbol .atSign => "'@'"

instance : ToString Kind := ⟨name⟩

def isReserved : Kind → Bool
  | reserved _ => true
  | _ => false

end Kind

end Lexis
