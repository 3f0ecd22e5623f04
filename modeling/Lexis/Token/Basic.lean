import Lexis.Decimal.Positional
import Lexis.Position
import Lexis.Token.Kind

/-! Tokens: a kind, what the token carries beyond its kind, and where it starts. -/
namespace Lexis

inductive Payload where
  | none
  | word (spelling : String)
  | text (content : String)
  | character (code : UInt8)
  | integer (value : Int32)
  | decimal (value : Float)
deriving BEq, Repr

structure Token where
  kind : Kind
  payload : Payload
  position : Position
deriving BEq, Repr

namespace Token

/-- The text of a token in a dump. An identifier stands for itself, and any other word is put into
square brackets. A literal is written as its value, a character by its code point. A token that
carries nothing is written as the name of its kind. -/
def text (t : Token) : String :=
  match t.payload with
  | .none => t.kind.name
  | .word spelling => if t.kind = .identifier then spelling else "[" ++ spelling ++ "]"
  | .text content => content
  | .character code => String.singleton (Char.ofUInt8 code)
  | .integer value => toString value.toInt
  | .decimal value => Decimal.textOfDouble value

instance : ToString Token := ⟨text⟩

def spelling? (t : Token) : Option String :=
  match t.payload with
  | .word spelling => some spelling
  | _ => none

def integer? (t : Token) : Option Int32 :=
  match t.payload with
  | .integer value => some value
  | _ => none

def isEnd (t : Token) : Bool :=
  t.kind = .endOfFile

end Token

end Lexis
