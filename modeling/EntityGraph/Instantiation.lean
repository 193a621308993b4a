import EntityGraph.FieldType.Names
import EntityGraph.FieldType.Substitution
import EntityGraph.Graph.Error

/-!
# Instantiations of templates

Replacing the parameters of a template by the arguments of a reference gives an object of its
own.  It owns its copies of the template's fields; what the template inherits or exposes is
taken over as it is.
-/

namespace EntityGraph

/-- Opens the documentation of every instantiation. -/
def genericMark : String := "@Generic"

namespace Field

def instantiate (b : Bindings) (owner : String) (f : Field) : Field :=
  { f with
    owner
    input := f.input.map fun v => { v with type := v.type.substitute b }
    output := f.output.map fun v =>
      { v with type := v.type.substitute b, param := v.param.map (·.substitute b) } }

end Field

namespace Object

def typeParameters (template : Object) : List String := template.generics.getD []

/-- What the parameters of a template stand for in a reference to it. -/
def bindings (template : Object) (r : Reference) : Bindings :=
  .ofPairs (template.typeParameters.zip (r.args.getD []))

/-- The documentation of an instantiation: its name, and below it that of the template. -/
def instanceDoc (template : Object) (genericName : String) : String :=
  genericMark ++ " " ++ genericName ++
    match template.doc with
    | some doc => "\n" ++ doc
    | none => ""

/-- The object that a reference to a template stands for, to be registered as `escaped`. -/
def instantiate (template : Object) (r : Reference) (escaped : String) :
    Except GraphError Object :=
  let expected := template.typeParameters.length
  let found := (r.args.getD []).length
  if expected ≠ found then .error (.arity r.genericName expected found r.location)
  else .ok
    { name := r.genericName
      registeredName := some escaped
      id := template.id
      deprecated := template.deprecated
      doc := some (template.instanceDoc r.genericName)
      fileName := template.fileName
      inherit := template.inherit
      generics := none
      fields := template.fields.mapValues fun _ => Field.instantiate (template.bindings r) escaped
      visibleFields := template.visibleFields }

end Object

end EntityGraph
