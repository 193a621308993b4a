/-!
# YAML trees

Scalars as written, with or without quotes, sequences and mappings.
-/

namespace EntityGraph.Yaml

structure Scalar where
  text : String
  /-- Whether the scalar is written without quotes. -/
  plain : Bool
  deriving DecidableEq

inductive Node where
  | scalar (value : Scalar)
  | sequence (items : List Node)
  | mapping (members : List (Node × Node))

/-- What stands where nothing is written. -/
def Node.blank : Node := .scalar ⟨"", true⟩

end EntityGraph.Yaml
