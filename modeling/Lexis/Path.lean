import Lexis.Byte
import Lexis.Text.Utf8

/-! Paths of files.
A path is a string of bytes in which slashes separate names. It is decoded only to be shown. -/
namespace Lexis

abbrev FileName := List UInt8

structure Path where
  bytes : List UInt8
deriving DecidableEq, Repr

namespace Path

def ofString (text : String) : Path := ⟨Text.utf8 text⟩

def text (p : Path) : String := Text.ofUtf8Lossy p.bytes

def here : FileName := [0x2e]

def around : FileName := [0x2e, 0x2e]

def steps (p : Path) : List FileName :=
  (p.bytes.splitOn Byte.slash).filter (· ≠ [])

def isAbsolute (p : Path) : Bool :=
  p.bytes.head? = some Byte.slash

def endsWithSlash (p : Path) : Bool :=
  p.bytes.getLast? = some Byte.slash

/-- The name of the file a path leads to. A path that ends by going up has none. -/
def fileName? (p : Path) : Option FileName :=
  (p.steps.filter (· ≠ here)).getLast?.filter (· ≠ around)

def sourceName (p : Path) : String :=
  match p.fileName? with
  | some name => Text.ofUtf8Lossy name
  | none => p.text

end Path

end Lexis
