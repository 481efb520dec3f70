import Laminate.Yaml.Codec
import Laminate.Yaml.Refusal

/-!
# Reading YAML

One document or all documents of a text as trees. When one document is asked for, what follows
it is not read. A text that breaks the grammar is refused for that, whatever is wrong with the
trees before the place where it does.
-/

namespace Laminate.Yaml

/-- The documents that events make up. -/
def compose (events : Except String (List PlacedEvent)) : Except Refusal (List Node) :=
  match events with
  | .error cause => .error (.malformed cause)
  | .ok events => (Composition.documentsOf events).mapError .misfit

namespace Codec

/-- All documents of a text. -/
def readAll (codec : Codec) (text : String) : Except Refusal (List Node) :=
  compose (codec.load text true)

/-- The first document of a text. -/
def read (codec : Codec) (text : String) : Except Refusal Node :=
  match compose (codec.load text false) with
  | .error refusal => .error refusal
  | .ok [] => .error .noDocument
  | .ok (node :: _) => .ok node

/-- The first document of a text, which has to be a mapping. -/
def readMap (codec : Codec) (text : String) : Except Refusal Node :=
  match codec.read text with
  | .error refusal => .error refusal
  | .ok node => if node.isMapping then .ok node else .error (.rootNotMap node.kind)

end Codec

end Laminate.Yaml
