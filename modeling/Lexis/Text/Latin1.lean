/-! Bytes as text, one character a byte.
A byte stands for the character with the same code point, whatever encoding the source around it
may have. -/
namespace Lexis.Text

def latin1 (bytes : List UInt8) : String :=
  String.ofList (bytes.map Char.ofUInt8)

@[simp] theorem toList_latin1 (bytes : List UInt8) :
    (latin1 bytes).toList = bytes.map Char.ofUInt8 := by
  simp [latin1]

end Lexis.Text
