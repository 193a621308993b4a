import EntityGraph.Graph.Node

/-!
# Schemas

A schema is what remains of one side of a graph: named entities, in which every object has its
fields resolved and in order.  The input schema says what callers may send, the output schema
what they get; they differ in what a field is.
-/

namespace EntityGraph

/-- One side of an object, with fields of type `F`. -/
structure ObjectSchema (F : Type) where
  name : String
  /-- The name the object is registered under. -/
  escapedName : String
  id : UInt32
  deprecated : Bool
  doc : Option String
  fields : List F

inductive SchemaNode (F : Type) where
  | scalar (value : Scalar)
  | enumeration (value : Enumeration)
  | union (value : Union)
  | object (value : ObjectSchema F)

def SchemaNode.object? {F : Type} : SchemaNode F → Option (ObjectSchema F)
  | .object o => some o
  | _ => none

abbrev Schema (F : Type) := Dict (SchemaNode F)

structure InputField where
  /-- The name in payloads. -/
  name : String
  /-- The name in validated payloads. -/
  targetName : String
  aliasName : Option String
  id : UInt32
  deprecated : Bool
  required : Bool
  doc : Option String
  defaultValue : Option Json
  type : FieldType
  hooks : Hooks

structure OutputField where
  name : String
  targetName : String
  aliasName : Option String
  id : UInt32
  deprecated : Bool
  required : Bool
  doc : Option String
  method : Option ResolverMethod
  param : Option FieldType
  type : FieldType
  hooks : Hooks

abbrev InputObject := ObjectSchema InputField

abbrev OutputObject := ObjectSchema OutputField

abbrev InputSchema := Schema InputField

abbrev OutputSchema := Schema OutputField

/-- The first field with a name of its own kind. -/
def InputObject.field? (o : InputObject) (name : String) : Option InputField :=
  o.fields.find? (·.name = name)

def OutputObject.field? (o : OutputObject) (name : String) : Option OutputField :=
  o.fields.find? (·.name = name)

end EntityGraph
