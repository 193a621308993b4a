import EntityGraph.Schema
import EntityGraph.Validate.Run

/-!
# Validation

Checks a payload against an object of the input schema and gives it the names that the program
uses.  Each field of the object is looked up by its name in payloads; one that is absent or null
is left out, and members that no field names are dropped.  A value that is there goes through

    assertion, transform, then by the type of the field
      list of ty        an array of what `ty` makes of the elements; null stays null, and what
                        is no array counts as its only element; the list's hooks come first
      input object      the same walk, one level down
      anything else     the value as it is

The first rejection ends the walk, and so does the time limit.  Without hooks every level of
objects goes down one level of the payload.  Hooks may put a value into itself without end, so a
walk has a number of levels (`validateWithin`); `validate` takes `hookLevels` more than the payload
has.
-/

namespace EntityGraph

/-- Objects that hooks may add below those of a payload. -/
def hookLevels : Nat := 100000

namespace Validate

/-- The elements of a value that stands for a list. -/
def elements : Json → List Json
  | .arr items => items
  | single => [single]

/-- What a type makes of a value.  `nested` is the walk one level down. -/
def value (schema : InputSchema) (nested : InputObject → Json → FieldPath → Run Json)
    (context : Option Json) : FieldType → Json → FieldPath → Run Json
  | .list element hooks, v, path => do
    let parent := elements v
    let made ← parent.zipIdx.mapM fun
      | (.null, _) => pure .null
      | (raw, i) => do
        let path := path.index i
        let v ← Run.hooks hooks ⟨.arr parent, raw, context⟩ path
        value schema nested context element v path
    return .arr made
  | .named name _, v, path => reference name v path
  | .generic name _ _, v, path => reference name v path
where
  reference (name : String) (v : Json) (path : FieldPath) : Run Json :=
    match schema.find? name with
    | some (.object o) => nested o v path
    | _ => pure v

/-- Adds what a field makes of a payload. -/
def field (check : FieldType → Json → FieldPath → Run Json) (context : Option Json)
    (payload : Json) (path : FieldPath) (f : InputField) (made : List (String × Json)) :
    Run (List (String × Json)) :=
  match payload.member? f.name with
  | none | some .null => pure made
  | some raw => do
    let path := path.field f.name
    let v ← Run.hooks f.hooks ⟨payload, raw, context⟩ path
    let v ← check f.type v path
    return Assoc.insert f.targetName v made

/-- The walk through an object, at most `levels` objects deep. -/
def object (schema : InputSchema) (context : Option Json) :
    (levels : Nat) → InputObject → Json → FieldPath → Run Json
  | 0, _, _, _ => .endless
  | levels + 1, o, payload, path =>
    match payload with
    | .obj _ => do
      let made ← o.fields.foldlM (fun made f =>
        field (value schema (object schema context levels) context) context payload path f made)
        []
      return .obj made
    | other => .fail (.invalidShape path other.kind)

end Validate

/-- An input schema to validate against, and the time that one call may take. -/
structure Validator where
  schema : InputSchema
  limit : Option Duration

namespace Validator

/-- The object of the schema with the given name. -/
def object (v : Validator) (name : String) : Except ValidationError InputObject :=
  match v.schema.find? name with
  | some (.object o) => .ok o
  | _ => .error (.unknownEntity name)

/-- Validates against an object, which need not be one of the schema, walking at most `levels`
objects deep. -/
def validateWithin (v : Validator) (levels : Nat) (o : InputObject) (payload : Json)
    (context : Option Json) : Verdict Json :=
  (Validate.object v.schema context levels o payload (.root o.escapedName)).verdict v.limit
    o.escapedName

/-- Validates against an object, with levels for the payload and for what hooks may add. -/
def validate (v : Validator) (o : InputObject) (payload : Json) (context : Option Json) :
    Verdict Json :=
  v.validateWithin (payload.depth + hookLevels) o payload context

/-- Validates against the object of the schema with the given name. -/
def validateEntity (v : Validator) (name : String) (payload : Json) (context : Option Json) :
    Verdict Json :=
  match v.object name with
  | .ok o => v.validate o payload context
  | .error e => ⟨[], .failed e⟩

end Validator

end EntityGraph
