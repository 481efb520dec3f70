import Laminate.Node.Entries
import Laminate.Text.Split

/-!
# Files

What a program finds under the names of files. A name is a path from the working folder: its
steps stand between slashes, an empty step and `.` stay where they are, and `..` goes back up. A
`Folder` holds the texts of all files below the working folder. Of what is outside it knows no
more than that there are folders on the way up.
-/

namespace Laminate.CommandLine

/-- Why a file cannot be read. -/
inductive ReadFault
  | missing
  /-- The name leads through a file. -/
  | notFolder
  /-- The name is that of a folder. -/
  | isFolder
  | nameTooLong
  | described (text : String)
deriving DecidableEq, Repr

/-- The message of a file that cannot be read. -/
def ReadFault.message : ReadFault → String
  | .missing => "No such file or directory (os error 2)"
  | .notFolder => "Not a directory (os error 20)"
  | .isFolder => "Is a directory (os error 21)"
  | .nameTooLong => "File name too long (os error 36)"
  | .described text => text

/-- The files: the text of each, or why it cannot be read. -/
abbrev Files := String → Except ReadFault String

/-- A step from a folder to something in it. -/
abbrev Step := List Char

/-- The steps of a name. -/
def stepsOf (name : String) : List Step :=
  Text.split '/' name.toList

/-- Whether a step stays where it is. -/
def Step.stays (step : Step) : Bool :=
  step == [] || step == ['.']

/-- The step back up. -/
def Step.back : Step := ['.', '.']

/-- The number of bytes that a step may have. -/
def maxStepSize : Nat := 255

/-- The number of bytes that a name may have. -/
def maxNameSize : Nat := 4095

/-- The files below a folder: the steps that lead to each, and its text. -/
structure Folder where
  files : List (List Step × String)
deriving DecidableEq, Repr

/-- What a name leads to. -/
inductive Place
  | folder (path : List Step)
  /-- A folder outside. -/
  | outside
  | file (text : String)
deriving DecidableEq, Repr

namespace Folder

/-- The folder of the files with the given names and texts. -/
def ofEntries (entries : Entries String) : Folder :=
  ⟨entries.map fun e => ((stepsOf e.1).filter fun step => !step.stays, e.2)⟩

/-- What a path below the folder leads to. -/
def find (f : Folder) (path : List Step) : Except ReadFault Place :=
  match f.files.lookup path with
  | some text => .ok (.file text)
  | none =>
    if f.files.any fun e => path.isPrefixOf e.1 then .ok (.folder path) else .error .missing

/-- Takes a step that neither stays nor goes back up. -/
def enter (f : Folder) (place : Place) (step : Step) : Except ReadFault Place :=
  if maxStepSize < (String.ofList step).utf8ByteSize then .error .nameTooLong
  else
    match place with
    | .folder path => f.find (path ++ [step])
    | _ => .error .missing

/-- The folder around a place. -/
def parent : Place → Place
  | .folder [] => .outside
  | .folder path => .folder path.dropLast
  | place => place

/-- Follows steps. -/
def follow (f : Folder) : Place → List Step → Except ReadFault Place
  | place, [] => .ok place
  | .file _, _ :: _ => .error .notFolder
  | place, step :: rest =>
    if step.stays then f.follow place rest
    else if step = Step.back then f.follow (parent place) rest
    else do f.follow (← f.enter place step) rest

/-- Where a name starts: a name that starts with a slash starts outside. -/
def start (name : String) : Place :=
  if name.toList.head? = some '/' then .outside else .folder []

/-- Reads a file. -/
def read (f : Folder) (name : String) : Except ReadFault String :=
  if maxNameSize < name.utf8ByteSize then .error .nameTooLong
  else
    match f.follow (start name) (stepsOf name) with
    | .ok (.file text) => .ok text
    | .ok _ => .error .isFolder
    | .error fault => .error fault

end Folder

/-- The files with the given names and texts. -/
def Files.ofEntries (entries : Entries String) : Files :=
  (Folder.ofEntries entries).read

end Laminate.CommandLine
