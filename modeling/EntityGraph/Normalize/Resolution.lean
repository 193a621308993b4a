import EntityGraph.Graph.Error

/-!
# Resolving visible fields

A visible field is declared by the object itself or by an ancestor.  The ancestors are searched
in a fixed order, the recorded origin first and then the inherit list, each name once; the first
that declares the field provides it.  A name on the way that is no object of the graph is an
error.  A field that nobody declares is left out and reported.
-/

namespace EntityGraph

/-- A finding that does not stop normalization. -/
inductive Diagnostic where
  /-- No declaration of a visible field was found on the object or on the ancestors searched. -/
  | unresolvedField (entity field : String) (searched : List String) (location : String)

def Diagnostic.message : Diagnostic → String
  | .unresolvedField entity field searched location =>
    s!"ignored field \"{entity}.{field}\": no declaration on the entity or on " ++
      "[" ++ ", ".intercalate searched ++ s!"] at {location}"

/-- A visible field with its declaration. -/
structure ResolvedField where
  /-- The key under which the object exposes the field. -/
  key : String
  field : Field
  required : Bool
  /-- The ancestor that declares the field, if the object does not. -/
  ancestor : Option String

namespace Resolution

/-- The ancestors that may declare a visible field, in the order of the search. -/
def searchOrder (o : Object) (v : VisibleField) : List String :=
  (v.origin.toList ++ o.ancestors).eraseDups

/-- The first declaration of a field on the given ancestors, and the ancestor's name. -/
def search (lookup : String → Option Node) (o : Object) (key : String) :
    List String → Except GraphError (Option (Field × String))
  | [] => .ok none
  | name :: rest =>
    match lookup name with
    | none => .error (.missingEntity name (o.name ++ "." ++ key) o.location)
    | some (.object owner) =>
      match owner.fields.find? key with
      | some field => .ok (some (field, owner.name))
      | none => search lookup o key rest
    | some other => .error (.notAnObject name other.kind (o.name ++ "." ++ key) o.location)

/-- The declaration of one visible field, or the report that there is none. -/
def resolve (lookup : String → Option Node) (o : Object) (key : String) (v : VisibleField) :
    Except GraphError (Except Diagnostic ResolvedField) :=
  match o.fields.find? key with
  | some field => .ok (.ok ⟨key, field, v.required, none⟩)
  | none => do
    match ← search lookup o key (searchOrder o v) with
    | some (field, ancestor) => return .ok ⟨key, field, v.required, some ancestor⟩
    | none =>
      return .error (.unresolvedField o.name key (searchOrder o v) o.location)

/-- The resolved fields among the given visible fields, and the reports on the others. -/
def resolveAll (lookup : String → Option Node) (o : Object) :
    List (String × VisibleField) → Except GraphError (List ResolvedField × List Diagnostic)
  | [] => .ok ([], [])
  | (key, v) :: rest => do
    let one ← resolve lookup o key v
    let (fields, reports) ← resolveAll lookup o rest
    match one with
    | .ok field => return (field :: fields, reports)
    | .error report => return (fields, report :: reports)

end Resolution

end EntityGraph
