import Lexis.CommandLine.Environment
import Lexis.CommandLine.Settings
import Lexis.CommandLine.UsageFault

/-! Reading the arguments, from left to right.
The file, and a name that stands in an argument of its own, are held back when they are read. They
are checked once the next option is recognised, or at the end. Until then an unknown option, a
value for an option that takes none, or a second file is reported in their place. The settings are
what the arguments say, and what the environment says where the arguments are silent. -/
namespace Lexis.CommandLine

inductive Stop where
  | fault (fault : UsageFault)
  | notice (notice : Notice)
deriving DecidableEq, Repr

structure Given where
  file : Option String
  name : Option String
  switches : List Switch
deriving DecidableEq, Repr

inductive Held where
  | file (value : String)
  | name (value : Option String)
deriving DecidableEq, Repr

structure Progress where
  given : Given
  held : Option Held
deriving DecidableEq, Repr

namespace Progress

def start : Progress := ⟨⟨none, none, []⟩, none⟩

/-- Checks the held value and accepts it. The file must not be empty, a name must have a value, and
there is one name at most. -/
def settle (p : Progress) : Except Stop Progress :=
  match p.held with
  | none => .ok p
  | some (.file value) =>
    if value.isEmpty then .error (.fault (.missingValue .file))
    else .ok ⟨{ p.given with file := some value }, none⟩
  | some (.name none) => .error (.fault (.missingValue .name))
  | some (.name (some value)) =>
    if p.given.name.isSome then .error (.fault (.repeated .name))
    else .ok ⟨{ p.given with name := some value }, none⟩

def hold (value : Held) (p : Progress) : Except Stop Progress := do
  return { ← p.settle with held := some value }

def hasFile (p : Progress) : Bool :=
  match p.held with
  | some (.file _) => true
  | _ => p.given.file.isSome

def positional (p : Progress) (argument : String) : Except Stop Progress :=
  if p.hasFile then .error (.fault (.unexpectedArgument argument)) else p.hold (.file argument)

def turnOn (p : Progress) (s : Switch) : Except Stop Progress := do
  let p ← p.settle
  match s with
  | .notice n => .error (.notice n)
  | s =>
    if p.given.switches.contains s then .error (.fault (.repeated (.switch s)))
    else .ok { p with given.switches := s :: p.given.switches }

def nameOption (p : Progress) (attached : Option String) : Except Stop Progress := do
  let p ← p.hold (.name attached)
  if attached.isSome then p.settle else .ok p

def long (p : Progress) (option : List Char) : Except Stop Progress :=
  let (word, rest) := option.span (· ≠ '=')
  let attached := rest.head?.map fun _ => String.ofList rest.tail
  match Parameter.ofLong? (String.ofList word) with
  | some .name => p.nameOption attached
  | some (.switch s) =>
    match attached with
    | some value => .error (.fault (.unexpectedValue value (.switch s)))
    | none => p.turnOn s
  | _ => .error (.fault (.unexpectedArgument ("--" ++ String.ofList word)))

/-- Reads short options. The one for the name takes what follows it as the value, where an equals
sign may come first. -/
def short (p : Progress) : List Char → Except Stop Progress
  | [] => .ok p
  | c :: rest =>
    match Parameter.ofShort? c with
    | some .name =>
      p.nameOption <| match rest with
        | [] => none
        | '=' :: value => some (String.ofList value)
        | value => some (String.ofList value)
    | some (.switch s) => do (← p.turnOn s).short rest
    | _ => .error (.fault (.unexpectedArgument (String.ofList ['-', c])))

def argument (p : Progress) (a : String) : Except Stop Progress :=
  match a.toList with
  | '-' :: '-' :: option => p.long option
  | '-' :: c :: rest => p.short (c :: rest)
  | _ =>
    match p.held with
    | some (.name none) => .ok { p with held := some (.name (some a)) }
    | _ => p.positional a

def arguments (p : Progress) : List String → Except Stop Progress
  | [] => .ok p
  -- Behind two dashes there are no options.
  | "--" :: as => as.foldlM positional p
  | a :: as => do (← p.argument a).arguments as

end Progress

def Given.ofArguments (arguments : List String) : Except Stop Given := do
  return (← (← Progress.start.arguments arguments).settle).given

/-- Whether a switch is on. Its variable counts only where the switch is not given. -/
def Given.isOn (g : Given) (s : Switch) (fallback : Option String) : Except UsageFault Bool :=
  if g.switches.contains s then .ok true
  else
    match fallback with
    | none => .ok false
    | some "true" => .ok true
    | some "false" => .ok false
    | some "" => .error (.missingValue (.switch s))
    | some value => .error (.invalidValue value (.switch s))

def Given.settings (g : Given) (env : Environment) : Except UsageFault Settings := do
  let verbose ← g.isOn .verbose env.verbose
  let noColour ← g.isOn .noColour env.noColour
  match g.file with
  | none => .error .missingFile
  | some file =>
    return {
      path := .ofString file
      name := g.name <|> env.name
      kinds := g.switches.contains .kinds
      verbose
      colour := !noColour && env.plain.isNone }

def Settings.ofArguments (arguments : List String) (env : Environment) : Except Stop Settings := do
  ((← Given.ofArguments arguments).settings env).mapError .fault

end Lexis.CommandLine
