import Lexis.Listing
import Lexis.Path
import Lexis.SystemError

/-! Sources that are read from files.
Reading is not done here. Each definition is given what reading the file at the path has led to. -/
namespace Lexis

def Scan.ofFile (path : Path) (content : Except ReadFault (List UInt8)) (name : Option String) :
    Except Failure Scan :=
  let source := name.getD path.sourceName
  match content with
  | .ok bytes => .ok (.ofBytes bytes (some source))
  | .error fault => .error ⟨.unreadable path.text fault.message, none, source⟩

def tokenizeFile (path : Path) (content : Except ReadFault (List UInt8)) :
    Except Failure (List Token) := do
  (← Scan.ofFile path content none).tokens

end Lexis
