import EntityGraph.Document.Encode
import EntityGraph.Normalize.Basic

/-!
# Writing the result of normalization
-/

namespace EntityGraph.Encode

def diagnostic : Diagnostic → Json
  | .unresolvedField entity field searched location =>
    .obj [("UnresolvedField", .obj [("entity", .str entity), ("field", .str field),
      ("searched", texts searched), ("location", .str location)])]

def normalized (n : Normalized) : Json :=
  .obj [("input", inputSchema n.input), ("output", outputSchema n.output),
    ("specializations", .arr (n.specializations.map object)),
    ("diagnostics", .arr (n.diagnostics.map diagnostic))]

end EntityGraph.Encode
