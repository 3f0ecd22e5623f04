/-! What can be given on the command line: the file, the name of the source, and switches. -/
namespace Lexis.CommandLine

inductive Notice where
  | help
  | version
deriving DecidableEq, Repr

inductive Switch where
  | kinds
  | verbose
  | noColour
  | notice (notice : Notice)
deriving DecidableEq, Repr

inductive Parameter where
  | file
  | name
  | switch (switch : Switch)
deriving DecidableEq, Repr

namespace Parameter

def all : List Parameter :=
  [file, name, switch .kinds, switch .verbose, switch .noColour, switch (.notice .help),
    switch (.notice .version)]

def long? : Parameter → Option String
  | file => none
  | name => some "name"
  | switch .kinds => some "kinds"
  | switch .verbose => some "verbose"
  | switch .noColour => some "no-color"
  | switch (.notice .help) => some "help"
  | switch (.notice .version) => some "version"

def short? : Parameter → Option Char
  | file => none
  | name => some 'n'
  | switch .kinds => some 'k'
  | switch .verbose => some 'v'
  | switch .noColour => none
  | switch (.notice .help) => some 'h'
  | switch (.notice .version) => some 'V'

def ofLong? (option : String) : Option Parameter :=
  all.find? fun p => p.long? = some option

def ofShort? (option : Char) : Option Parameter :=
  all.find? fun p => p.short? = some option

def label (p : Parameter) : String :=
  match p, p.long? with
  | name, some option => "--" ++ option ++ " <NAME>"
  | _, some option => "--" ++ option
  | _, none => "<FILE>"

theorem mem_all (p : Parameter) : p ∈ all := by
  rcases p with _ | _ | (_ | _ | _ | (_ | _)) <;> simp [all]

end Parameter

end Lexis.CommandLine
