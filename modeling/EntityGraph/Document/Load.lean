import EntityGraph.Document.Format
import EntityGraph.Yaml.Reader

/-!
# Loading documents

A document is a text in one of the formats.  From JSON text a decoder reads its value, and only
when that has succeeded the rest of the text counts: nothing but blanks may be left.  What a YAML
text holds is for the reader of YAML to say; why it refuses a text is not told.
-/

namespace EntityGraph

/-- Why a document could not be loaded. -/
inductive LoadError where
  | json (cause : DecodeError)
  | yaml

def LoadError.message : LoadError → String
  | .json _ => "invalid JSON document"
  | .yaml => "invalid YAML document"

/-- Reads a whole JSON text. -/
def Decoder.read {α : Type} (decode : Decoder α) (text : String) : Except DecodeError α := do
  let document := Draft.ofText text
  let value ← decode .document document.root
  if document.overrun then .error .malformed else .ok value

namespace Graph

def load [YamlReader] (format : Format) (text : String) : Except LoadError Graph :=
  match format with
  | .json => (Decoder.graph.read text).mapError .json
  | .yaml =>
    match YamlReader.graph? text with
    | some g => .ok g
    | none => .error .yaml

end Graph

namespace Json

def load [YamlReader] (format : Format) (text : String) : Except LoadError Json :=
  match format with
  | .json => (Decoder.free.read text).mapError .json
  | .yaml =>
    match YamlReader.value? text with
    | some value => .ok value
    | none => .error .yaml

end Json

end EntityGraph
