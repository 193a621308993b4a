import EntityGraph.Graph.Object

/-!
# Nodes

What a name in the graph can stand for.  Lists, references and fields are nodes too, since a
document may hold them, but no graph with such an entry can be normalized.
-/

namespace EntityGraph

structure Scalar where
  name : String
  doc : Option String

structure EnumMember where
  name : String
  value : Json
  doc : Option String
  deprecated : Bool

structure Enumeration where
  name : String
  doc : Option String
  members : List EnumMember

structure Union where
  name : String
  doc : Option String
  types : List Reference

inductive Node where
  | scalar (value : Scalar)
  | enumeration (value : Enumeration)
  | union (value : Union)
  | object (value : Object)
  | list (element : FieldType) (hooks : Hooks)
  | reference (value : Reference)
  | field (value : Field)

namespace Node

inductive Kind where
  | scalar | enumeration | union | object | list | reference | field
  deriving DecidableEq

def Kind.name : Kind → String
  | .scalar => "Scalar"
  | .enumeration => "Enum"
  | .union => "Union"
  | .object => "PlainObject"
  | .list => "List"
  | .reference => "Reference"
  | .field => "Field"

def kind : Node → Kind
  | .scalar _ => .scalar
  | .enumeration _ => .enumeration
  | .union _ => .union
  | .object _ => .object
  | .list .. => .list
  | .reference _ => .reference
  | .field _ => .field

def object? : Node → Option Object
  | .object o => some o
  | _ => none

end Node

end EntityGraph
