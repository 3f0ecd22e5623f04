import Lexis.CommandLine.Answer

/-! The program. -/
namespace Lexis.Main

def refusal : IO.Error → SystemError
  | .alreadyExists _ code words => .ofCode code words
  | .otherError code words => .ofCode code words
  | .resourceBusy code words => .ofCode code words
  | .resourceVanished code words => .ofCode code words
  | .unsupportedOperation code words => .ofCode code words
  | .hardwareFault code words => .ofCode code words
  | .unsatisfiedConstraints code words => .ofCode code words
  | .illegalOperation code words => .ofCode code words
  | .protocolError code words => .ofCode code words
  | .timeExpired code words => .ofCode code words
  | .interrupted _ code words => .ofCode code words
  | .noFileOrDirectory _ code words => .ofCode code words
  | .invalidArgument _ code words => .ofCode code words
  | .permissionDenied _ code words => .ofCode code words
  | .resourceExhausted _ code words => .ofCode code words
  | .inappropriateType _ code words => .ofCode code words
  | .noSuchThing _ code words => .ofCode code words
  | .unexpectedEof => ⟨0, "Unexpected end of file"⟩
  | .userError words => ⟨0, words⟩

def readFile (path : Path) : IO (Except ReadFault (List UInt8)) := do
  if path.bytes.contains 0 then return .error .zeroInPath
  try
    return .ok (← IO.FS.readBinFile path.text).toList
  catch e =>
    return .error (.refused (refusal e))

def answer (arguments : List String) : IO CommandLine.Answer := do
  let env ← CommandLine.Environment.ofLookup fun key => (IO.getEnv key : IO (Option String))
  match CommandLine.Settings.ofArguments arguments env with
  | .error stop => return stop.answer env
  | .ok settings => return settings.answer (← readFile settings.path)

def write (text : String) : IO (Option SystemError) := do
  try
    let output ← IO.getStdout
    output.putStr text
    output.flush
    return none
  catch e =>
    return some (refusal e)

end Lexis.Main

def main (arguments : List String) : IO UInt32 := do
  let answer ← Lexis.Main.answer arguments
  let outcome := answer.outcome (← Lexis.Main.write (answer.outcome none).output)
  IO.eprint outcome.messages
  return outcome.code
