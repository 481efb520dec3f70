import Laminate.CommandLine.Merge
import Laminate.Yaml.Standard

/-!
# The program

Reads the files that the command line names, and prints what comes of it.
-/

namespace Laminate.CommandLine

/-- The words of the system for why a file cannot be read. -/
def systemText (code : UInt32) (details : String) : String :=
  details ++ " (os error " ++ toString code ++ ")"

/-- Why a file cannot be read. -/
def readFaultOf : IO.Error → ReadFault
  | .noFileOrDirectory _ _ _ => .missing
  | .inappropriateType _ code details | .permissionDenied _ code details
  | .invalidArgument _ code details | .resourceExhausted _ code details
  | .noSuchThing _ code details => .described (systemText code details)
  | .userError _ => .described "stream did not contain valid UTF-8"
  | e => .described (toString e)

/-- The files that a command line names. -/
def filesOf (words : List String) : List String :=
  match Command.ofWords? words with
  | some (.merge a) => a.files ++ a.secrets.toList
  | _ => []

/-- Reads a file. -/
def readFile (name : String) : IO (Except ReadFault String) := do
  try
    pure (.ok (← IO.FS.readFile name))
  catch e =>
    pure (.error (readFaultOf e))

/-- Reads files. -/
def readFiles (names : List String) : IO Files := do
  let texts ← names.mapM fun name => do
    pure (name, ← readFile name)
  pure fun name => (texts.lookup name).getD (.error .missing)

/-- What is printed when the command line makes no sense. -/
def usageText : String :=
  "Usage: graft merge [--fallback-append] [--skip-eval] [--prune PATH]... [--secrets FILE] "
    ++ "[--redact] [--json] [--debug] FILES..."

/-- Prints what an outcome has to say. -/
def report : Outcome → IO Unit
  | .output text => IO.print text
  | .mishap cause => IO.eprintln ("Error: " ++ cause.message)
  | .usage => IO.eprintln usageText

end Laminate.CommandLine

open Laminate.CommandLine in
/-- Runs the program on the words of its command line. -/
def main (words : List String) : IO UInt32 := do
  let outcome := run .standard words (← readFiles (filesOf words))
  report outcome
  pure (UInt32.ofNat outcome.status)
