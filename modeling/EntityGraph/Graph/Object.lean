import EntityGraph.Dict
import EntityGraph.Graph.Field

/-!
# Objects

An object declares fields of its own and exposes a set of visible fields, which may also come
from its ancestors.  An object with type parameters is a template: it stands for the objects
that arise when its parameters are replaced by types.
-/

namespace EntityGraph

/-- A field that an object exposes. -/
structure VisibleField where
  /-- The ancestor that the field comes from, if it is not the object's own. -/
  origin : Option String
  index : UInt64
  optional : Bool

def VisibleField.required (v : VisibleField) : Bool := !v.optional

structure Object where
  /-- The declared name; for an instantiation its generic name. -/
  name : String
  /-- The name the object is registered under, if that is not `name`. -/
  registeredName : Option String
  id : UInt32
  deprecated : Bool
  doc : Option String
  fileName : Option String
  /-- Names of ancestors, nearest first. -/
  inherit : Option (List String)
  /-- Names of type parameters. -/
  generics : Option (List String)
  /-- Fields declared by the object itself. -/
  fields : Dict Field
  /-- Fields the object exposes, inherited ones included. -/
  visibleFields : Dict VisibleField

namespace Object

/-- An object with a name and nothing else. -/
def named (name : String) : Object :=
  ⟨name, none, 0, false, none, none, none, none, .empty, .empty⟩

def escapedName (o : Object) : String := o.registeredName.getD o.name

def isTemplate (o : Object) : Bool := o.generics.isSome

def ancestors (o : Object) : List String := o.inherit.getD []

def location (o : Object) : String := o.fileName.getD unknownLocation

/-- Declares a field and exposes it. -/
def withField (o : Object) (field : Field) (optional : Bool) : Object :=
  { o with
    fields := o.fields.insert field.name field
    visibleFields := o.visibleFields.insert field.name ⟨none, field.index, optional⟩ }

/-- Exposes a field of an ancestor. -/
def withInheritedField (o : Object) (ancestor field : String) (index : UInt64)
    (optional : Bool) : Object :=
  { o with visibleFields := o.visibleFields.insert field ⟨some ancestor, index, optional⟩ }

end Object

end EntityGraph
