import Lexis.Path
import Lexis.SystemError

/-! Trees of files.
A tree holds files and directories below a directory in which relative paths start. A path may
leave the tree upwards or start at the root. The directories met there have no entries but the two
that every directory has. -/
namespace Lexis

structure FileTree where
  directories : List (List FileName)
  /-- The files, the latest first. It hides earlier ones of the same name. -/
  files : List (List FileName × List UInt8)
deriving DecidableEq, Repr

namespace FileTree

def empty : FileTree := ⟨[[]], []⟩

def goOn (names : List FileName) (step : FileName) : List FileName :=
  if step = Path.here then names
  -- At the top `dropLast` leaves nothing out.
  else if step = Path.around then names.dropLast
  else names ++ [step]

def along (names : List FileName) : List FileName → List (List FileName)
  | [] => [names]
  | step :: steps => names :: along (goOn names step) steps

def addDirectory (t : FileTree) (p : Path) : FileTree :=
  { t with directories := along [] p.steps ++ t.directories }

def addFile (t : FileTree) (p : Path) (content : List UInt8) : FileTree where
  directories := along [] p.steps.dropLast ++ t.directories
  files := (p.steps.foldl goOn [], content) :: t.files

inductive Place where
  | directory (names : List FileName)
  | file (content : List UInt8)
  /-- A directory outside the tree. -/
  | outside
deriving DecidableEq, Repr

def nameLimit : Nat := 255

def pathLimit : Nat := 4095

def entry (t : FileTree) (names : List FileName) : Except SystemError Place :=
  match t.files.lookup names with
  | some content => .ok (.file content)
  | none => if t.directories.contains names then .ok (.directory names) else .error .notFound

def step (t : FileTree) (place : Place) (name : FileName) : Except SystemError Place :=
  match place with
  | .file _ => .error .notDirectory
  | .directory names =>
    if name = Path.here then .ok place
    else if name = Path.around then
      .ok (if names.isEmpty then .outside else .directory names.dropLast)
    else if nameLimit < name.length then .error .nameTooLong
    else t.entry (names ++ [name])
  | .outside =>
    if name = Path.here ∨ name = Path.around then .ok .outside
    else if nameLimit < name.length then .error .nameTooLong
    else .error .notFound

/-- Where a path leads. A slash at the end asks for the directory itself. -/
def follow (t : FileTree) (p : Path) : Except SystemError Place :=
  (p.steps ++ if p.endsWithSlash then [Path.here] else []).foldlM t.step
    (if p.isAbsolute then .outside else .directory [])

def read (t : FileTree) (p : Path) : Except ReadFault (List UInt8) :=
  if p.bytes.contains 0 then .error .zeroInPath
  else if p.bytes.isEmpty then .error (.refused .notFound)
  else if pathLimit < p.bytes.length then .error (.refused .nameTooLong)
  else
    match t.follow p with
    | .error e => .error (.refused e)
    | .ok (.file content) => .ok content
    | .ok (.directory _) => .error (.refused .isDirectory)
    | .ok .outside => .error (.refused .isDirectory)

end FileTree

end Lexis
