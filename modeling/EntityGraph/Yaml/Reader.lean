import EntityGraph.Document.Decode
import EntityGraph.Yaml.Draft

/-!
# Readers of YAML

What a YAML text holds is for a reader to say: a graph, where a graph is asked for, or a free value,
or nothing if the text is refused.  Documents are loaded, and commands run, with any reader, and
what is said of them is said of any.

The reader given here decodes the tree of a text by the rules for JSON.  It does not read all of
YAML: texts with directives, anchors, aliases, tags or block scalars have no tree
(`Yaml.Token.ofText?`), so it refuses them.
-/

namespace EntityGraph

/-- What YAML texts hold: a graph, a free value, or nothing where the text is refused. -/
class YamlReader where
  graph? : (text : String) → Option Graph
  value? : (text : String) → Option Json

namespace Yaml

/-- Decodes the tree of a text. -/
def decode? {α : Type} (decode : Decoder α) (draft : Node → Draft) (text : String) : Option α := do
  let root ← Node.ofText? text
  (decode ⟨false, 128⟩ (draft root)).toOption

/-- Reads the texts that have a tree. -/
instance treeReader : YamlReader where
  graph? := decode? Decoder.graph Node.graphDraft
  value? := decode? Decoder.free (Node.draft true)

end Yaml

end EntityGraph
