import EntityGraph.Graph.Basic
import EntityGraph.Json.Printer
import EntityGraph.Schema

/-!
# Writing declarations

Graphs and schemas as JSON values.  Every member of a record is written, in order of
declaration, with null for one that is absent; a tagged value has its kind first.  Hooks are not
written.
-/

namespace EntityGraph

namespace Encode

def text (s : String) : Json := .str s

def text? (s : Option String) : Json := Json.ofText? s

def texts (l : List String) : Json := .arr (l.map .str)

def id (n : UInt32) : Json := .nat n.toNat

def index (n : UInt64) : Json := .nat n.toNat

/-- The encoding of a value that may be absent. -/
def orNull {α : Type} (encode : α → Json) : Option α → Json
  | none => .null
  | some a => encode a

def dict {α : Type} (encode : α → Json) (d : Dict α) : Json :=
  .obj (d.mapValues fun _ => encode).entries

/-- Puts the kind before the members of a record. -/
def tagged (kind : String) (members : List (String × Json)) : Json :=
  .obj (("kind", .str kind) :: members)

/-! ## Types -/

mutual

def fieldType : FieldType → Json
  | .list element _ => tagged "List" [("element", fieldType element)]
  | .named name fileName =>
    tagged "Reference" [("name", .str name), ("params", .null), ("file_name", text? fileName)]
  | .generic name args fileName =>
    tagged "Reference"
      [("name", .str name), ("params", .arr (fieldTypes args)), ("file_name", text? fileName)]

def fieldTypes : List FieldType → List Json
  | [] => []
  | a :: rest => fieldType a :: fieldTypes rest

end

def referenceMembers (r : Reference) : List (String × Json) :=
  [("name", .str r.name), ("params", orNull (fun args => .arr (fieldTypes args)) r.args),
    ("file_name", text? r.fileName)]

def reference (r : Reference) : Json := .obj (referenceMembers r)

/-! ## Nodes -/

def scalarMembers (s : Scalar) : List (String × Json) :=
  [("name", .str s.name), ("doc", text? s.doc)]

def enumMember (m : EnumMember) : Json :=
  .obj [("name", .str m.name), ("value", m.value), ("doc", text? m.doc),
    ("deprecated", .bool m.deprecated)]

def enumerationMembers (e : Enumeration) : List (String × Json) :=
  [("name", .str e.name), ("doc", text? e.doc), ("members", .arr (e.members.map enumMember))]

def unionMembers (u : Union) : List (String × Json) :=
  [("name", .str u.name), ("doc", text? u.doc), ("types", .arr (u.types.map reference))]

def inputVariant (v : InputVariant) : Json :=
  .obj [("name", .str v.name), ("id", id v.id), ("alias", text? v.aliasName),
    ("deprecated", .bool v.deprecated), ("doc", text? v.doc), ("type", fieldType v.type),
    ("default_value", v.defaultValue.getD .null), ("file_name", text? v.fileName)]

def resolverMethod (m : ResolverMethod) : Json :=
  .obj [("owner", .str m.owner), ("method", .str m.method)]

def outputVariant (v : OutputVariant) : Json :=
  .obj [("name", .str v.name), ("id", id v.id), ("alias", text? v.aliasName),
    ("deprecated", .bool v.deprecated), ("doc", text? v.doc), ("type", fieldType v.type),
    ("method", orNull resolverMethod v.method), ("param", orNull fieldType v.param),
    ("file_name", text? v.fileName)]

def fieldMembers (f : Field) : List (String × Json) :=
  [("name", .str f.name), ("index", index f.index), ("owner", .str f.owner),
    ("input", orNull inputVariant f.input), ("output", orNull outputVariant f.output)]

def field (f : Field) : Json := .obj (fieldMembers f)

def visibleField (v : VisibleField) : Json :=
  .obj [("origin", text? v.origin), ("index", index v.index), ("optional", .bool v.optional)]

def objectMembers (o : Object) : List (String × Json) :=
  [("name", .str o.name), ("escaped_name", text? o.registeredName), ("id", id o.id),
    ("deprecated", .bool o.deprecated), ("doc", text? o.doc), ("file_name", text? o.fileName),
    ("inherit", orNull texts o.inherit), ("generics", orNull texts o.generics),
    ("fields", dict field o.fields), ("visible_fields", dict visibleField o.visibleFields)]

def object (o : Object) : Json := .obj (objectMembers o)

def node : Node → Json
  | .scalar s => tagged "Scalar" (scalarMembers s)
  | .enumeration e => tagged "Enum" (enumerationMembers e)
  | .union u => tagged "Union" (unionMembers u)
  | .object o => tagged "PlainObject" (objectMembers o)
  | .list element _ => tagged "List" [("element", fieldType element)]
  | .reference r => tagged "Reference" (referenceMembers r)
  | .field f => tagged "Field" (fieldMembers f)

def graph (g : Graph) : Json := .obj [("entities", dict node g.entities)]

/-! ## Schemas -/

def inputField (f : InputField) : Json :=
  .obj [("name", .str f.name), ("target_name", .str f.targetName), ("alias", text? f.aliasName),
    ("id", id f.id), ("deprecated", .bool f.deprecated), ("required", .bool f.required),
    ("doc", text? f.doc), ("default_value", f.defaultValue.getD .null),
    ("type", fieldType f.type)]

def outputField (f : OutputField) : Json :=
  .obj [("name", .str f.name), ("target_name", .str f.targetName), ("alias", text? f.aliasName),
    ("id", id f.id), ("deprecated", .bool f.deprecated), ("required", .bool f.required),
    ("doc", text? f.doc), ("method", orNull resolverMethod f.method),
    ("param", orNull fieldType f.param), ("type", fieldType f.type)]

def objectSchemaMembers {F : Type} (field : F → Json) (o : ObjectSchema F) :
    List (String × Json) :=
  [("name", .str o.name), ("escaped_name", .str o.escapedName), ("id", id o.id),
    ("deprecated", .bool o.deprecated), ("doc", text? o.doc), ("fields", .arr (o.fields.map field))]

def schemaNode {F : Type} (field : F → Json) : SchemaNode F → Json
  | .scalar s => tagged "Scalar" (scalarMembers s)
  | .enumeration e => tagged "Enum" (enumerationMembers e)
  | .union u => tagged "Union" (unionMembers u)
  | .object o => tagged "PlainObject" (objectSchemaMembers field o)

def inputSchema (s : InputSchema) : Json := dict (schemaNode inputField) s

def outputSchema (s : OutputSchema) : Json := dict (schemaNode outputField) s

end Encode

end EntityGraph
