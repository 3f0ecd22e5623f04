/-! Refusals of the operating system, and what keeps a file from being read. -/
namespace Lexis

structure SystemError where
  code : Nat
  words : String
deriving DecidableEq, Repr

namespace SystemError

def notFound : SystemError := ⟨2, "No such file or directory"⟩

def denied : SystemError := ⟨13, "Permission denied"⟩

def notDirectory : SystemError := ⟨20, "Not a directory"⟩

def isDirectory : SystemError := ⟨21, "Is a directory"⟩

def noSpace : SystemError := ⟨28, "No space left on device"⟩

def nameTooLong : SystemError := ⟨36, "File name too long"⟩

def named : List SystemError :=
  [notFound, denied, notDirectory, isDirectory, noSpace, nameTooLong]

/-- A refusal from the number and the words it came with. The number may be negated, and then it is
32 bits wide. -/
def ofCode (code : UInt32) (words : String) : SystemError :=
  let number := if code < 0x80000000 then code.toNat else 0x100000000 - code.toNat
  (named.find? (·.code = number)).getD ⟨number, words⟩

def message (e : SystemError) : String :=
  e.words ++ " (os error " ++ toString e.code ++ ")"

end SystemError

inductive ReadFault where
  | refused (error : SystemError)
  /-- The path holds a zero byte, at which the system would take it to end. -/
  | zeroInPath
deriving DecidableEq, Repr

def ReadFault.message : ReadFault → String
  | refused error => error.message
  | zeroInPath => "file name contained an unexpected NUL byte"

end Lexis
