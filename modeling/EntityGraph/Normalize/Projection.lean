import EntityGraph.FieldType.Names
import EntityGraph.Normalize.Resolution
import EntityGraph.Schema

/-!
# The two sides of an object

A resolved field goes to the input schema with its input variant and to the output schema with
its output variant.  In both, a type that refers to a template with arguments becomes one that
refers to the instantiation by its escaped name, under the same lists.  The documentation of an
inherited field says where it comes from.
-/

namespace EntityGraph

/-- Opens the line that says where a field is inherited from. -/
def inheritMark : String := "@inherit-from"

namespace FieldType

/-- The type with the instantiation named in place of a reference with arguments. -/
def concrete (ty : FieldType) : FieldType :=
  let r := ty.terminal
  match r.args with
  | none => ty
  | some _ => ty.onTerminal (.named r.escapedName r.fileName)

end FieldType

namespace ResolvedField

/-- Where an inherited field comes from. -/
def source (f : ResolvedField) : Option String :=
  f.ancestor.map fun ancestor => ancestor ++ "." ++ f.key

def doc (f : ResolvedField) (own : Option String) : Option String :=
  match own, f.source with
  | own, none => own
  | some own, some source => some (own ++ "\n" ++ inheritMark ++ " " ++ source)
  | none, some source => some (inheritMark ++ " " ++ source)

def inputField? (f : ResolvedField) : Option InputField :=
  f.field.input.map fun v =>
    { name := v.name
      targetName := f.field.name
      aliasName := v.aliasName
      id := v.id
      deprecated := v.deprecated
      required := f.required
      doc := f.doc v.doc
      defaultValue := v.defaultValue
      type := v.type.concrete
      hooks := v.hooks }

def outputField? (f : ResolvedField) : Option OutputField :=
  f.field.output.map fun v =>
    { name := v.name
      targetName := f.field.name
      aliasName := v.aliasName
      id := v.id
      deprecated := v.deprecated
      required := f.required
      doc := f.doc v.doc
      method := v.method
      param := v.param.map (·.concrete)
      type := v.type.concrete
      hooks := v.hooks }

end ResolvedField

namespace Object

/-- One side of an object, unless it has no fields there. -/
def side? {F : Type} (o : Object) (escapedName : String) (fields : List F) :
    Option (ObjectSchema F) :=
  if fields.isEmpty then none
  else some ⟨o.name, escapedName, o.id, o.deprecated, o.doc, fields⟩

end Object

end EntityGraph
