import EntityGraph.Graph.Basic
import EntityGraph.Schema

/-!
# Attaching hooks

Documents hold no hooks, so a program attaches them to what it has loaded: to the input variant
of a field, or to a list inside the field's type.  A hook takes the place of one of its sort that
is there already.
-/

namespace EntityGraph

/-- Adds hooks, those of `h` in place of others. -/
def Hooks.add (hooks h : Hooks) : Hooks :=
  ⟨h.assertion.or hooks.assertion, h.transform.or hooks.transform⟩

/-- A step from a type to one of its parts. -/
inductive TypeStep where
  | element
  | argument (position : Nat)

/-- Attaches hooks to the list that is reached by the given steps. -/
def FieldType.attach (h : Hooks) : List TypeStep → FieldType → Option FieldType
  | [], .list element hooks => some (.list element (hooks.add h))
  | .element :: steps, .list element hooks =>
    (FieldType.attach h steps element).map (.list · hooks)
  | .argument i :: steps, .generic name args fileName =>
    match args[i]? with
    | some arg =>
      (FieldType.attach h steps arg).map fun arg => .generic name (args.set i arg) fileName
    | none => none
  | _, _ => none

/-- Attaches hooks to an input variant, or to a list inside its type. -/
def InputVariant.attach (v : InputVariant) (h : Hooks) :
    Option (List TypeStep) → Option InputVariant
  | none => some { v with hooks := v.hooks.add h }
  | some steps => (v.type.attach h steps).map fun type => { v with type }

def InputField.attach (f : InputField) (h : Hooks) : Option (List TypeStep) → Option InputField
  | none => some { f with hooks := f.hooks.add h }
  | some steps => (f.type.attach h steps).map fun type => { f with type }

namespace Graph

/-- Attaches hooks to the input variant of a field that an object declares. -/
def attach (g : Graph) (entity field : String) (steps : Option (List TypeStep)) (h : Hooks) :
    Option Graph := do
  let object ← (← g.find? entity).object?
  let declared ← object.fields.find? field
  let input ← (← declared.input).attach h steps
  let fields := object.fields.insert field { declared with input := some input }
  return ⟨g.entities.insert entity (.object { object with fields })⟩

end Graph

namespace InputSchema

/-- Attaches hooks to the first field of a name. -/
def attachFirst (name : String) (steps : Option (List TypeStep)) (h : Hooks) :
    List InputField → Option (List InputField)
  | [] => none
  | f :: rest =>
    if f.name = name then (f.attach h steps).map (· :: rest)
    else (attachFirst name steps h rest).map (f :: ·)

/-- Attaches hooks to the first field of an object with the given name in payloads. -/
def attach (s : InputSchema) (entity field : String) (steps : Option (List TypeStep))
    (h : Hooks) : Option InputSchema := do
  let object ← (← s.find? entity).object?
  let fields ← attachFirst field steps h object.fields
  return s.insert entity (.object { object with fields })

end InputSchema

end EntityGraph
