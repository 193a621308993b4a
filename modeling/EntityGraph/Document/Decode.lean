import EntityGraph.Document.Decoder
import EntityGraph.Graph.Basic
import EntityGraph.Schema

/-!
# Reading declarations

The decoders of graphs and schemas.  Each record lists its members in order of declaration.
Hooks are no part of documents: what is read has none.

In a graph a member that may be null may also be left out, and so may identifiers, flags, the
fields of an object and the entities.  In a schema only members that may be null may be left
out, and only of a record that is written as an object.
-/

namespace EntityGraph

namespace Decoder

/-! ## Types -/

/-- The decoder of references, given that of their arguments. -/
def referenceWith (argument : Decoder FieldType) : Record Reference :=
  Reference.mk <$> .required "name" text
    <*> .optional "params" (orNull (sequence argument)) none
    <*> .optional "file_name" (orNull text) none

/-- A list of what the given decoder reads; it has no hooks. -/
def listWith {α : Type} (list : FieldType → Hooks → α) (element : Decoder FieldType) :
    Decoder α :=
  Record.decoder "ListType" ((list · .none) <$> .required "element" element)

/-- Reads types nested at most `depth` deep. -/
def fieldTypeWithin : (depth : Nat) → Decoder FieldType
  | 0 => fun _ _ => .error .malformed
  | depth + 1 => Tagged.decoder "FieldType" [
      ("List", listWith .list (fieldTypeWithin depth)),
      ("Reference", (Reference.toType <$> referenceWith (fieldTypeWithin depth)).decoder
        "Reference")]

/-- A type is nested no deeper than the brackets around its parts. -/
def fieldType : Decoder FieldType := fun r d => fieldTypeWithin (r.room + 1) r d

def reference : Decoder Reference := (referenceWith fieldType).decoder "Reference"

/-! ## Nodes -/

def scalar : Decoder Scalar :=
  Record.decoder "ScalarNode" <|
    Scalar.mk <$> .required "name" text <*> .optional "doc" (orNull text) none

def enumMember : Decoder EnumMember :=
  Record.decoder "EnumMember" <|
    EnumMember.mk <$> .required "name" text
      <*> .required "value" free
      <*> .optional "doc" (orNull text) none
      <*> .optional "deprecated" flag false

def enumeration : Decoder Enumeration :=
  Record.decoder "EnumNode" <|
    Enumeration.mk <$> .required "name" text
      <*> .optional "doc" (orNull text) none
      <*> .required "members" (sequence enumMember)

def union : Decoder Union :=
  Record.decoder "UnionNode" <|
    Union.mk <$> .required "name" text
      <*> .optional "doc" (orNull text) none
      <*> .required "types" (sequence reference)

def inputVariant : Decoder InputVariant :=
  Record.decoder "InputVariant" <|
    (fun name id aliasName deprecated doc type defaultValue fileName =>
        ⟨name, id, aliasName, deprecated, doc, type, defaultValue, fileName, .none⟩) <$>
      .required "name" text
      <*> .optional "id" id 0
      <*> .optional "alias" (orNull text) none
      <*> .optional "deprecated" flag false
      <*> .optional "doc" (orNull text) none
      <*> .required "type" fieldType
      <*> .optional "default_value" freeOrNull none
      <*> .optional "file_name" (orNull text) none

def resolverMethod : Decoder ResolverMethod :=
  Record.decoder "ResolverMethod" <|
    ResolverMethod.mk <$> .required "owner" text <*> .required "method" text

def outputVariant : Decoder OutputVariant :=
  Record.decoder "OutputVariant" <|
    (fun name id aliasName deprecated doc type method param fileName =>
        ⟨name, id, aliasName, deprecated, doc, type, method, param, fileName, .none⟩) <$>
      .required "name" text
      <*> .optional "id" id 0
      <*> .optional "alias" (orNull text) none
      <*> .optional "deprecated" flag false
      <*> .optional "doc" (orNull text) none
      <*> .required "type" fieldType
      <*> .optional "method" (orNull resolverMethod) none
      <*> .optional "param" (orNull fieldType) none
      <*> .optional "file_name" (orNull text) none

def field : Decoder Field :=
  Record.decoder "Field" <|
    Field.mk <$> .required "name" text
      <*> .required "index" index
      <*> .required "owner" text
      <*> .optional "input" (orNull inputVariant) none
      <*> .optional "output" (orNull outputVariant) none

def visibleField : Decoder VisibleField :=
  Record.decoder "VisibleField" <|
    VisibleField.mk <$> .optional "origin" (orNull text) none
      <*> .required "index" index
      <*> .optional "optional" flag false

def object : Decoder Object :=
  Record.decoder "PlainObject" <|
    Object.mk <$> .required "name" text
      <*> .optional "escaped_name" (orNull text) none
      <*> .optional "id" id 0
      <*> .optional "deprecated" flag false
      <*> .optional "doc" (orNull text) none
      <*> .optional "file_name" (orNull text) none
      <*> .optional "inherit" (orNull (sequence text)) none
      <*> .optional "generics" (orNull (sequence text)) none
      <*> .optional "fields" (dict field) .empty
      <*> .optional "visible_fields" (dict visibleField) .empty

/-- Applies a function to what a decoder reads. -/
def map {α β : Type} (f : α → β) (decode : Decoder α) : Decoder β := fun r d => f <$> decode r d

def node : Decoder Node :=
  Tagged.decoder "Node" [
    ("Scalar", map .scalar scalar),
    ("Enum", map .enumeration enumeration),
    ("Union", map .union union),
    ("PlainObject", map .object object),
    ("List", listWith .list fieldType),
    ("Reference", map .reference reference),
    ("Field", map .field field)]

/-! ## Graphs -/

/-- Declares what has been read, under the rules for declaring. -/
def declare (g : Graph) (name : String) (n : Node) : Except DecodeError Graph :=
  (g.insert name n).mapError fun _ => .duplicateEntity name

def entities : Decoder Graph := gather .entities node declare .empty

def graph : Decoder Graph := Record.decoder "TypeGraph" (.optional "entities" entities .empty)

/-! ## Schemas -/

def objectSchema {F : Type} (name : String) (field : Decoder F) : Decoder (ObjectSchema F) :=
  Record.decoder name <|
    ObjectSchema.mk <$> .required "name" text
      <*> .required "escaped_name" text
      <*> .required "id" id
      <*> .required "deprecated" flag
      <*> .nullable "doc" text
      <*> .required "fields" (sequence field)

def inputField : Decoder InputField :=
  Record.decoder "InputField" <|
    (fun name targetName aliasName id deprecated required doc defaultValue type =>
        ⟨name, targetName, aliasName, id, deprecated, required, doc, defaultValue, type, .none⟩) <$>
      .required "name" text
      <*> .required "target_name" text
      <*> .nullable "alias" text
      <*> .required "id" id
      <*> .required "deprecated" flag
      <*> .required "required" flag
      <*> .nullable "doc" text
      <*> .nullable "default_value" free
      <*> .required "type" fieldType

def outputField : Decoder OutputField :=
  Record.decoder "OutputField" <|
    (fun name targetName aliasName id deprecated required doc method param type =>
        ⟨name, targetName, aliasName, id, deprecated, required, doc, method, param, type,
          .none⟩) <$>
      .required "name" text
      <*> .required "target_name" text
      <*> .nullable "alias" text
      <*> .required "id" id
      <*> .required "deprecated" flag
      <*> .required "required" flag
      <*> .nullable "doc" text
      <*> .nullable "method" resolverMethod
      <*> .nullable "param" fieldType
      <*> .required "type" fieldType

def inputObject : Decoder InputObject := objectSchema "InputObject" inputField

def outputObject : Decoder OutputObject := objectSchema "OutputObject" outputField

def schemaNode {F : Type} (name : String) (object : Decoder (ObjectSchema F)) :
    Decoder (SchemaNode F) :=
  Tagged.decoder name [
    ("Scalar", map .scalar scalar),
    ("Enum", map .enumeration enumeration),
    ("Union", map .union union),
    ("PlainObject", map .object object)]

def inputSchema : Decoder InputSchema := dict (schemaNode "InputNode" inputObject)

def outputSchema : Decoder OutputSchema := dict (schemaNode "OutputNode" outputObject)

end Decoder

end EntityGraph
