import EntityGraph.Graph.Basic
import EntityGraph.Instantiation
import EntityGraph.Normalize.FieldOrder
import EntityGraph.Normalize.Projection

/-!
# Normalization

Turns a graph into its input and its output schema.  The entries of the graph are visited in
order.  Visiting an object resolves and arranges its visible fields and requests an
instantiation for every type among them that refers to a template with arguments; an
instantiation requested for the first time is made and visited later in its turn.

Instantiations are made generation by generation: the graph is generation 0, and what an entry
of generation `d` requests first belongs to generation `d + 1`.  No instantiation is deeper than
`maxDepth`, so `maxDepth + 1` generations are all there are, whatever the templates ask for.

The graph itself is never changed.  Names are looked up in it first, and then among the
instantiations made so far.
-/

namespace EntityGraph

/-- The two schemas of a graph, and what came up on the way. -/
structure Normalized where
  input : InputSchema
  output : OutputSchema
  /-- All instantiations, in the order in which they were made. -/
  specializations : List Object
  diagnostics : List Diagnostic

/-- An instantiation, and the number of requests between it and the graph. -/
structure Instance where
  object : Object
  depth : Nat

namespace Normalize

/-- The deepest generation of instantiations. -/
def maxDepth : Nat := 32

structure State where
  instances : Dict Instance
  input : InputSchema
  output : OutputSchema
  diagnostics : List Diagnostic

def State.empty : State := ⟨.empty, .empty, .empty, []⟩

/-- What a name stands for: an entry of the graph or an instantiation made so far. -/
def lookup (g : Graph) (st : State) (name : String) : Option Node :=
  match g.find? name with
  | some node => some node
  | none => (st.instances.find? name).map fun i => .object i.object

/-! ## Requests -/

/-- A reference with arguments that stands in a field. -/
structure Request where
  reference : Reference
  /-- The field, with the entity that declares it. -/
  referencedBy : String
  location : String

/-- The request of a type, if it refers to a template with arguments. -/
def request? (referencedBy location : String) (ty : FieldType) : Option Request :=
  match ty.terminal.args with
  | none => none
  | some _ => some ⟨ty.terminal, referencedBy, location⟩

/-- The requests of a field of `o`: for the input type, the parameter and the output type. -/
def requests (o : Object) (f : ResolvedField) : List Request :=
  let owner := f.ancestor.getD o.name
  let ofInput (v : InputVariant) := request? (owner ++ "." ++ v.name) v.location v.type
  let ofOutput (v : OutputVariant) (ty : FieldType) :=
    request? (owner ++ "." ++ v.name) v.location ty
  (f.field.input.bind ofInput).toList ++
    (f.field.output.bind fun v => v.param.bind (ofOutput v)).toList ++
    (f.field.output.bind fun v => ofOutput v v.type).toList

/-- The object that a request names. -/
def template (g : Graph) (st : State) (q : Request) : Except GraphError Object :=
  match lookup g st q.reference.name with
  | none => .error (.missingEntity q.reference.name q.referencedBy q.location)
  | some (.object o) => .ok o
  | some other => .error (.notAnObject q.reference.name other.kind q.referencedBy q.location)

/-- Grants a request of an entry at `depth`.  An instantiation made before is used again, if it
is the one asked for and not another of the same escaped name. -/
def grant (g : Graph) (depth : Nat) (st : State) (q : Request) : Except GraphError State := do
  let template ← template g st q
  let escaped := q.reference.escapedName
  let generic := q.reference.genericName
  let collision := GraphError.nameCollision escaped generic q.reference.location
  if g.contains escaped then .error collision
  else
    match st.instances.find? escaped with
    | some made => if made.object.name = generic then .ok st else .error collision
    | none =>
      if maxDepth < depth + 1 then
        .error (.expansion template.name generic q.referencedBy maxDepth q.location)
      else do
        let object ← template.instantiate q.reference escaped
        return { st with instances := st.instances.insert escaped ⟨object, depth + 1⟩ }

def grantAll (g : Graph) (depth : Nat) : State → List Request → Except GraphError State
  | st, [] => .ok st
  | st, q :: rest => do grantAll g depth (← grant g depth st q) rest

/-! ## Visits -/

/-- Adds an entry to a schema, unless there is nothing to add. -/
def emit {F : Type} (schema : Schema F) (name : String) (side : Option (ObjectSchema F)) :
    Schema F :=
  match side with
  | none => schema
  | some o => schema.insert name (.object o)

def visitObject (g : Graph) (depth : Nat) (st : State) (name : String) (o : Object) :
    Except GraphError State := do
  let (resolved, reports) ←
    Resolution.resolveAll (lookup g st) o o.visibleFields.entries
  let fields := FieldOrder.arrange o resolved
  let st ← grantAll g depth st (fields.flatMap (requests o))
  return { st with
    diagnostics := st.diagnostics ++ reports
    input := emit st.input name (o.side? name (fields.filterMap (·.inputField?)))
    output := emit st.output name (o.side? name (fields.filterMap (·.outputField?))) }

def visit (g : Graph) (depth : Nat) (st : State) (name : String) :
    Node → Except GraphError State
  | .scalar s => .ok { st with
      input := st.input.insert name (.scalar s), output := st.output.insert name (.scalar s) }
  | .enumeration e => .ok { st with
      input := st.input.insert name (.enumeration e)
      output := st.output.insert name (.enumeration e) }
  | .union u => .ok { st with
      input := st.input.insert name (.union u), output := st.output.insert name (.union u) }
  | .object o => if o.isTemplate then .ok st else visitObject g depth st name o
  | other => .error (.unexpectedKind name other.kind)

def visitAll (g : Graph) (depth : Nat) : State → List (String × Node) → Except GraphError State
  | st, [] => .ok st
  | st, (name, node) :: rest => do visitAll g depth (← visit g depth st name node) rest

/-! ## Generations -/

/-- The entries of a generation, in the order in which they came up. -/
def generation (g : Graph) (st : State) : Nat → List (String × Node)
  | 0 => g.entities.entries
  | depth + 1 =>
    (st.instances.entries.filter fun (_, i) => i.depth = depth + 1).map
      fun (name, i) => (name, .object i.object)

/-- Visits the given number of generations, the first of them at `depth`. -/
def generations (g : Graph) : Nat → (depth : Nat) → State → Except GraphError State
  | 0, _, st => .ok st
  | count + 1, depth, st => do
    let st ← visitAll g depth st (generation g st depth)
    generations g count (depth + 1) st

def State.result (st : State) : Normalized :=
  ⟨st.input, st.output, st.instances.values.map (·.object), st.diagnostics⟩

end Normalize

/-- The schemas of a graph. -/
def Graph.normalize (g : Graph) : Except GraphError Normalized :=
  (Normalize.generations g (Normalize.maxDepth + 1) 0 .empty).map (·.result)

end EntityGraph
