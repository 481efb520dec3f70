import Laminate.Yaml.Composition

/-!
# Refusals

Why a text gives no tree, or a tree no text, and what is said about it.
-/

namespace Laminate.Yaml

/-- Why a tree cannot be read or written. -/
inductive Refusal
  /-- The text breaks the grammar, for a reason that the codec words. -/
  | malformed (cause : String)
  | noDocument
  /-- The text is well-formed, but its events do not make up a tree. -/
  | misfit (cause : Misfit)
  | rootNotMap (kind : Kind)
  /-- The codec cannot write the value of the tree. -/
  | unwritable (cause : String)
deriving DecidableEq, Repr

namespace Refusal

/-- The heading of a message: whether the text, the tree or the writing is at fault. -/
def heading : Refusal → String
  | .malformed _ => "Parse error: "
  | .noDocument => "Parse error: "
  | .misfit _ => "Invalid YAML structure: "
  | .rootNotMap _ => "Invalid YAML structure: "
  | .unwritable _ => "Emit error: "

/-- The wording of a refusal. -/
def text : Refusal → String
  | .malformed cause => cause
  | .noDocument => "No YAML document found"
  | .misfit cause => cause.text
  | .rootNotMap kind => "root of document is a " ++ kind.name ++ ", not a map"
  | .unwritable cause => cause

/-- Whether a refusal is about a text, which may have come from a file. -/
def isAboutText : Refusal → Bool
  | .unwritable _ => false
  | _ => true

/-- The message of a refusal, with the name of the file that the text came from. -/
def message (file : Option String) (r : Refusal) : String :=
  match file with
  | some name => if r.isAboutText then r.heading ++ name ++ ": " ++ r.text else r.heading ++ r.text
  | none => r.heading ++ r.text

end Refusal

end Laminate.Yaml
