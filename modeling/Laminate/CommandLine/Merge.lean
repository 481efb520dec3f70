import Laminate.CommandLine.Arguments
import Laminate.CommandLine.Files
import Laminate.Node.Json
import Laminate.Operator.Builtin
import Laminate.Pipeline
import Laminate.Yaml.Reader
import Laminate.Yaml.Writer

/-!
# Merging files

The merge as a function of the files: the documents are read in order, then the file of secrets,
and the result of the run is written as YAML or JSON. The first file that cannot be used ends the
work. YAML is read and written through a codec.
-/

namespace Laminate.CommandLine

/-- Why a merge gives no result. -/
inductive Mishap
  | unreadable (file : String) (fault : ReadFault)
  | refused (file : String) (refusal : Yaml.Refusal)
  /-- A secret that is no mapping. -/
  | secretKind (file path : String)
  /-- A part of a secret that is no text. -/
  | secretValue (file path key : String)
  | failed (failure : Failure)
  /-- A result that cannot be written. -/
  | unwritten (refusal : Yaml.Refusal)
deriving DecidableEq, Repr

/-- The message of a mishap. -/
def Mishap.message : Mishap → String
  | .unreadable file fault =>
    "failed to read " ++ file ++ "\n\nCaused by:\n    " ++ fault.message
  | .refused file refusal => refusal.message (some file)
  | .secretKind file path =>
    file ++ ": secret `" ++ path ++ "` must be a map of keys to values"
  | .secretValue file path key =>
    file ++ ": secret `" ++ path ++ "` key `" ++ key ++ "` must be a scalar"
  | .failed failure => failure.message
  | .unwritten refusal => refusal.message none

section Codec

variable (codec : Yaml.Codec)

/-- The document in a file. -/
def readDocument (files : Files) (file : String) : Except Mishap Node :=
  match files file with
  | .error fault => .error (.unreadable file fault)
  | .ok text => (codec.readMap text).mapError (.refused file)

/-- The texts of one secret. -/
def readSecret (file path : String) (node : Node) : Except Mishap Secret :=
  match node with
  | .mapping entries =>
    entries.mapM fun e =>
      match e.2.text? with
      | some text => .ok (e.1, text)
      | none => .error (.secretValue file path e.1)
  | _ => .error (.secretKind file path)

/-- The secrets of a file: a mapping from paths to mappings of texts. -/
def readSecrets (files : Files) (file : String) : Except Mishap (Entries Secret) := do
  let document ← readDocument codec files file
  (document.entries?.getD []).mapM fun e => do
    pure (e.1, ← readSecret file e.1 e.2)

namespace Arguments

/-- How the run is done. -/
def options (a : Arguments) : Pipeline.Options where
  fallback := if Switch.fallbackAppend ∈ a.switches then .append else .inline
  skipEvaluation := decide (Switch.skipEvaluation ∈ a.switches)
  prune := a.prune

/-- The secret store of the run, if there is one. -/
def store (a : Arguments) (files : Files) : Except Mishap (Option SecretStore) :=
  match a.secrets with
  | none => .ok none
  | some file => (readSecrets codec files file).map fun secrets => some (.ofEntries secrets)

/-- The text of the result. -/
def render (a : Arguments) (tree : Node) : Except Mishap String :=
  if Switch.json ∈ a.switches then .ok (tree.prettyJson ++ "\n")
  else (codec.write tree).mapError .unwritten

/-- Reads the files, merges the documents and writes the result. -/
def run (a : Arguments) (files : Files) : Except Mishap String := do
  let docs ← a.files.mapM (readDocument codec files)
  let context : Context :=
    { store := ← a.store codec files, redact := decide (Switch.redact ∈ a.switches) }
  match (Pipeline.run a.options Registry.builtin docs context).1 with
  | .error failure => throw (.failed failure)
  | .ok tree => a.render codec tree

end Arguments

/-! ## The program -/

/-- The name and the version of the program. -/
def versionLine : String := "graft 0.1.0\n"

/-- How the program ends. -/
inductive Outcome
  | output (text : String)
  | mishap (cause : Mishap)
  /-- The command line makes no sense. -/
  | usage
deriving DecidableEq, Repr

/-- The exit status of an outcome. -/
def Outcome.status : Outcome → Nat
  | .output _ => 0
  | .mishap _ => 1
  | .usage => 2

/-- Does what a command line asks for. -/
def run (words : List String) (files : Files) : Outcome :=
  match Command.ofWords? words with
  | none => .usage
  | some .version => .output versionLine
  | some (.merge arguments) =>
    match arguments.run codec files with
    | .ok text => .output text
    | .error cause => .mishap cause

end Codec

end Laminate.CommandLine
