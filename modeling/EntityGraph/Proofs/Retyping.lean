import EntityGraph.Normalize.FieldOrder
import EntityGraph.Normalize.Resolution

/-!
# Changing the types of fields

Resolution finds declarations and the field order arranges them by their names, owners and
indices.  Neither looks at a type, so both may be done before or after `φ` is applied to the types
of all fields.

    resolveAll (retyped φ lookup) (o.mapTypes φ) vs
      = (resolveAll lookup o vs).map fun x => (x.1.map (·.mapTypes φ), x.2)   (resolveAll_mapTypes)
    arrange (o.mapTypes φ) (fields.map (·.mapTypes φ))
      = (arrange o fields).map (·.mapTypes φ)                                   (arrange_mapTypes)
-/

namespace EntityGraph

/-! ## Algorithm -/

/-- The types that stand in a field: of its input, of its parameter and of its output. -/
def Field.types (f : Field) : List FieldType :=
  (f.input.map (·.type)).toList ++ (f.output.bind (·.param)).toList ++
    (f.output.map (·.type)).toList

/-- The field with `φ` of each of its types. -/
def Field.mapTypes (φ : FieldType → FieldType) (f : Field) : Field :=
  { f with
    input := f.input.map fun v => { v with type := φ v.type }
    output := f.output.map fun v => { v with type := φ v.type, param := v.param.map φ } }

/-- The object with `φ` of the types of the fields it declares. -/
def Object.mapTypes (φ : FieldType → FieldType) (o : Object) : Object :=
  { o with fields := o.fields.mapValues fun _ => Field.mapTypes φ }

def Node.mapTypes (φ : FieldType → FieldType) : Node → Node
  | .object o => .object (o.mapTypes φ)
  | node => node

def ResolvedField.mapTypes (φ : FieldType → FieldType) (f : ResolvedField) : ResolvedField :=
  { f with field := f.field.mapTypes φ }

/-- Looks names up and changes the types of the fields declared there. -/
def retyped (φ : FieldType → FieldType) (lookup : String → Option Node) : String → Option Node :=
  fun name => (lookup name).map (Node.mapTypes φ)

/-! ## Lemmas -/

variable {φ : FieldType → FieldType} {lookup : String → Option Node} {o : Object} {key : String}

theorem Object.find?_fields_mapTypes (o : Object) (key : String) :
    (o.mapTypes φ).fields.find? key = (o.fields.find? key).map (Field.mapTypes φ) :=
  Dict.find?_mapValues ..

theorem Field.types_mapTypes (f : Field) : (f.mapTypes φ).types = f.types.map φ := by
  obtain ⟨name, index, owner, input, output⟩ := f
  cases input <;> cases output with
  | none => rfl
  | some v => cases hp : v.param <;> simp [types, mapTypes, hp]

theorem Field.mapTypes_eq_iff {ψ : FieldType → FieldType} {f : Field} :
    f.mapTypes φ = f.mapTypes ψ ↔ ∀ ty ∈ f.types, φ ty = ψ ty := by
  obtain ⟨name, index, owner, input, output⟩ := f
  cases input <;> cases output with
  | none => simp [types, mapTypes]
  | some v => cases hp : v.param <;> simp [types, mapTypes, hp, and_comm]

namespace Resolution

theorem search_mapTypes (names : List String) :
    search (retyped φ lookup) (o.mapTypes φ) key names =
      (search lookup o key names).map (Option.map fun x => (x.1.mapTypes φ, x.2)) := by
  induction names with
  | nil => rfl
  | cons name rest ih =>
    rw [search, search, retyped]
    cases lookup name with
    | none => rfl
    | some node =>
      cases node with
      | object owner =>
        simp only [Option.map_some, Node.mapTypes, Object.find?_fields_mapTypes]
        cases owner.fields.find? key with
        | none => exact ih
        | some field => rfl
      | _ => rfl

theorem resolve_mapTypes (v : VisibleField) :
    resolve (retyped φ lookup) (o.mapTypes φ) key v =
      (resolve lookup o key v).map (Except.map (ResolvedField.mapTypes φ)) := by
  rw [resolve, resolve, Object.find?_fields_mapTypes]
  cases o.fields.find? key with
  | some field => rfl
  | none =>
    have horder : searchOrder (o.mapTypes φ) v = searchOrder o v := rfl
    simp only [Option.map_none, horder, search_mapTypes]
    cases search lookup o key (searchOrder o v) with
    | error err => rfl
    | ok x => cases x <;> rfl

theorem resolveAll_mapTypes (vs : List (String × VisibleField)) :
    resolveAll (retyped φ lookup) (o.mapTypes φ) vs =
      (resolveAll lookup o vs).map fun x => (x.1.map (ResolvedField.mapTypes φ), x.2) := by
  induction vs with
  | nil => rfl
  | cons p rest ih =>
    rw [resolveAll, resolveAll, resolve_mapTypes, ih]
    cases resolve lookup o p.1 p.2 with
    | error err => rfl
    | ok one =>
      cases resolveAll lookup o rest with
      | error err => cases one <;> rfl
      | ok x => cases one <;> rfl

end Resolution

namespace FieldOrder

theorem place_mapTypes (ancestors : List String) (f : ResolvedField) (fields : List ResolvedField) :
    place ancestors (f.mapTypes φ) (fields.map (ResolvedField.mapTypes φ)) =
      (place ancestors f fields).map (ResolvedField.mapTypes φ) := by
  induction fields with
  | nil => rfl
  | cons a rest ih =>
    have hbefore : before ancestors (a.mapTypes φ) (f.mapTypes φ) = before ancestors a f := rfl
    simp only [List.map_cons, place, hbefore, ih]
    split <;> rfl

theorem sort_mapTypes (ancestors : List String) (fields : List ResolvedField) :
    sort ancestors (fields.map (ResolvedField.mapTypes φ)) =
      (sort ancestors fields).map (ResolvedField.mapTypes φ) := by
  induction fields with
  | nil => rfl
  | cons f rest ih => rw [List.map_cons, sort, sort, ih, place_mapTypes]

theorem arrange_mapTypes (o : Object) (fields : List ResolvedField) :
    arrange (o.mapTypes φ) (fields.map (ResolvedField.mapTypes φ)) =
      (arrange o fields).map (ResolvedField.mapTypes φ) := by
  have hancestors : (o.mapTypes φ).ancestors = o.ancestors := rfl
  rw [arrange, arrange, hancestors, sort_mapTypes]
  split <;> rfl

end FieldOrder

end EntityGraph
