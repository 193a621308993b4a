import EntityGraph.FieldType.Basic

/-!
# Fields

A field has an input side and an output side, each of which may be missing and which need not
agree: they have their own names, types and hooks.
-/

namespace EntityGraph

/-- How callers send a field. -/
structure InputVariant where
  /-- The name in payloads. -/
  name : String
  id : UInt32
  aliasName : Option String
  deprecated : Bool
  doc : Option String
  type : FieldType
  defaultValue : Option Json
  fileName : Option String
  hooks : Hooks

namespace InputVariant

def ofType (name : String) (type : FieldType) : InputVariant :=
  ⟨name, 0, none, false, none, type, none, none, .none⟩

def location (v : InputVariant) : String := v.fileName.getD unknownLocation

end InputVariant

/-- The method that computes an output field. -/
structure ResolverMethod where
  owner : String
  method : String

/-- How a field is returned. -/
structure OutputVariant where
  /-- The name in results. -/
  name : String
  id : UInt32
  aliasName : Option String
  deprecated : Bool
  doc : Option String
  type : FieldType
  method : Option ResolverMethod
  /-- The type of the method's argument. -/
  param : Option FieldType
  fileName : Option String
  hooks : Hooks

namespace OutputVariant

def ofType (name : String) (type : FieldType) : OutputVariant :=
  ⟨name, 0, none, false, none, type, none, none, none, .none⟩

def location (v : OutputVariant) : String := v.fileName.getD unknownLocation

end OutputVariant

structure Field where
  /-- The name that validated payloads use. -/
  name : String
  /-- The place among the fields of `owner`. -/
  index : UInt64
  /-- The entity that declares the field. -/
  owner : String
  input : Option InputVariant
  output : Option OutputVariant

namespace Field

def bare (owner name : String) (index : UInt64) : Field := ⟨name, index, owner, none, none⟩

/-- A field that has the same name and type on both sides. -/
def both (owner name : String) (index : UInt64) (type : FieldType) : Field :=
  ⟨name, index, owner, some (.ofType name type), some (.ofType name type)⟩

end Field

end EntityGraph
