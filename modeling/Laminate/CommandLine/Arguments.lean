/-!
# Arguments of the command line

The words behind the command `merge` are files and options, in any order. A switch stands alone
and at most once, the other options take a value: the next word, or what follows an equals sign
in the same word. Behind a lone `--` every word is a file.
-/

namespace Laminate.CommandLine

/-- An option without a value. -/
inductive Switch
  | fallbackAppend
  | skipEvaluation
  | redact
  | json
  | debug
deriving DecidableEq, Repr

/-- An option with a value. -/
inductive Setting
  | prune
  | secrets
deriving DecidableEq, Repr

/-- The switches and their names. -/
def Switch.named : List (String × Switch) :=
  [ ("fallback-append", .fallbackAppend), ("skip-eval", .skipEvaluation), ("redact", .redact),
    ("json", .json), ("debug", .debug) ]

/-- The settings and their names. -/
def Setting.named : List (String × Setting) :=
  [("prune", .prune), ("secrets", .secrets)]

/-- What a merge is asked to do. -/
structure Arguments where
  /-- The documents, the first one at the bottom. -/
  files : List String := []
  switches : List Switch := []
  /-- The paths to remove from the result. -/
  prune : List String := []
  /-- The file of secrets. -/
  secrets : Option String := none
deriving DecidableEq, Repr

/-- A word of the command line. -/
inductive Word
  /-- The mark behind which all words are files. -/
  | separator
  /-- The name of an option, and the value in the same word. -/
  | option (name : String) (value : Option String)
  /-- A word with a single dash in front. -/
  | short
  | plain
deriving DecidableEq, Repr

/-- What a word is. A lone dash is a plain word. -/
def Word.ofText (text : String) : Word :=
  match text.toList with
  | ['-', '-'] => .separator
  | '-' :: '-' :: cs =>
    let name := cs.takeWhile (· ≠ '=')
    let value :=
      match cs.dropWhile (· ≠ '=') with
      | [] => none
      | _ :: value => some (String.ofList value)
    .option (String.ofList name) value
  | '-' :: _ :: _ => .short
  | _ => .plain

namespace Arguments

/-- Turns on a switch that is not on yet. -/
def turnOn (a : Arguments) (switch : Switch) : Option Arguments :=
  if switch ∈ a.switches then none else some { a with switches := switch :: a.switches }

/-- Adds a file. No file has an empty name. -/
def addFile (a : Arguments) (file : String) : Option Arguments :=
  if file = "" then none else some { a with files := a.files ++ [file] }

/-- Adds several files. -/
def addFiles (a : Arguments) (files : List String) : Option Arguments :=
  files.foldlM addFile a

/-- Gives a value to a setting. There may be any number of paths to remove, and one file of
secrets. -/
def give (a : Arguments) (setting : Setting) (value : String) : Option Arguments :=
  match setting with
  | .prune => some { a with prune := a.prune ++ [value] }
  | .secrets =>
    if a.secrets.isSome || value = "" then none else some { a with secrets := some value }

/-- Takes in an option: a switch is turned on, and a setting gets the value in the same word or
waits for the next word. -/
def addOption (a : Arguments) (name : String) (value : Option String) :
    Option (Arguments × Option Setting) :=
  match Switch.named.lookup name, Setting.named.lookup name, value with
  | some switch, _, none => (a.turnOn switch).map (·, none)
  | none, some setting, some value => (a.give setting value).map (·, none)
  | none, some setting, none => some (a, some setting)
  | _, _, _ => none

/-- Reads words one after the other, the first of which may be the value of a setting. A word that
makes no sense makes the whole command line void. -/
def readWords (a : Arguments) : Option Setting → List String → Option Arguments
  | none, [] => some a
  | some _, [] => none
  | some setting, text :: rest =>
    if Word.ofText text = .plain then do readWords (← a.give setting text) none rest else none
  | none, text :: rest =>
    match Word.ofText text with
    | .separator => a.addFiles rest
    | .plain => do readWords (← a.addFile text) none rest
    | .short => none
    | .option name value => do
      let (a, waiting) ← a.addOption name value
      readWords a waiting rest

end Arguments

/-- What the program is asked to do. -/
inductive Command
  | merge (arguments : Arguments)
  | version
deriving DecidableEq, Repr

/-- Whether a word asks for the version. Whatever follows the letter in the same word is not
read. -/
def asksVersion (word : String) : Bool :=
  word == "--version" || ['-', 'V'].isPrefixOf word.toList

/-- Reads a command line. A merge needs at least one file. -/
def Command.ofWords? : List String → Option Command
  | [] => none
  | first :: words =>
    if asksVersion first then some .version
    else if first = "merge" then do
      let arguments ← Arguments.readWords {} none words
      if arguments.files.isEmpty then none else some (.merge arguments)
    else none

end Laminate.CommandLine
