import EntityGraph.Graph.Node
import EntityGraph.Text.Numeral

/-!
# Defects of a graph

Each defect ends the operation that comes upon it.  `referencedBy` is the field or the entity
that holds a broken reference, `location` the place in the declaring source.
-/

namespace EntityGraph

inductive GraphError where
  | duplicateEntity (name : String)
  | missingEntity (name referencedBy location : String)
  | notAnObject (name : String) (kind : Node.Kind) (referencedBy location : String)
  /-- An instantiation would be registered under a name that is taken. -/
  | nameCollision (escapedName genericName location : String)
  /-- A template has another number of parameters than the reference has arguments. -/
  | arity (genericName : String) (expected found : Nat) (location : String)
  /-- Instantiations give rise to one another without end. -/
  | expansion (template genericName referencedBy : String) (limit : Nat) (location : String)
  /-- A node that cannot stand in a graph by itself. -/
  | unexpectedKind (name : String) (kind : Node.Kind)

namespace GraphError

def message : GraphError → String
  | .duplicateEntity name => s!"duplicated entity name: {name}"
  | .missingEntity name referencedBy location =>
    s!"missing entity \"{name}\" referenced by \"{referencedBy}\" at {location}"
  | .notAnObject name kind referencedBy location =>
    s!"expected PlainObject for \"{name}\" referenced by \"{referencedBy}\", got {kind.name} " ++
      s!"at {location}"
  | .nameCollision escapedName genericName location =>
    s!"found entity \"{escapedName}\" which equals the escaped name of generic {genericName} " ++
      s!"at {location}"
  | .arity genericName expected found location =>
    s!"generic {genericName} expects {natString expected} type argument(s), " ++
      s!"got {natString found} at {location}"
  | .expansion template genericName referencedBy limit location =>
    s!"generic {genericName} referenced by \"{referencedBy}\" exceeds the specialization depth " ++
      s!"limit of {natString limit} for template \"{template}\" at {location}"
  | .unexpectedKind name kind => s!"unknown kind: {kind.name} at graph entry \"{name}\""

end GraphError

end EntityGraph
