import EntityGraph.Graph.Error

/-!
# Graphs of declarations

A graph maps names to nodes in the order in which they were declared.  No name is declared
twice: a declaration under a name that is taken is refused.  Declarations change a graph in place
(`Change`), and a change that is refused has a graph after it as well; `insert` and the others give
the graph that they lead to.
-/

namespace EntityGraph

structure Graph where
  entities : Dict Node

namespace Graph

def empty : Graph := ⟨.empty⟩

instance : Inhabited Graph := ⟨empty⟩

def find? (g : Graph) (name : String) : Option Node := g.entities.find? name

def contains (g : Graph) (name : String) : Bool := g.entities.contains name

def size (g : Graph) : Nat := g.entities.size

def names (g : Graph) : List String := g.entities.keys

/-! ## Changes -/

/-- Something done to a graph, which gives a result or is refused. -/
abbrev Change := EStateM GraphError Graph

/-- Declares a node under a name that is not taken. -/
def declare (name : String) (node : Node) : Change Unit := do
  let g ← get
  if g.contains name then throw (.duplicateEntity name)
  else set (⟨g.entities.insert name node⟩ : Graph)

/-- Declares an object under its own name, and gives it back. -/
def declareObject (object : Object) : Change Object := do
  declare object.escapedName (.object object)
  return object

/-- Declares a scalar that is called as it is registered. -/
def declareScalar (name : String) : Change Unit := declare name (.scalar ⟨name, none⟩)

theorem run_declare (g : Graph) (name : String) (node : Node) : (declare name node).run g =
    if g.contains name then .error (.duplicateEntity name) g
    else .ok () ⟨g.entities.insert name node⟩ := by
  simp only [declare, EStateM.run_bind, EStateM.run_get]
  split <;> rfl

/-- The graph that a change leads to, unless it is refused. -/
def Change.result {α : Type} (x : Change α) (g : Graph) : Except GraphError Graph :=
  match x.run g with
  | .ok _ g' => .ok g'
  | .error e _ => .error e

def insert (g : Graph) (name : String) (node : Node) : Except GraphError Graph :=
  (declare name node).result g

def insertObject (g : Graph) (object : Object) : Except GraphError Graph :=
  (declareObject object).result g

def insertScalar (g : Graph) (name : String) : Except GraphError Graph :=
  (declareScalar name).result g

theorem insert_eq (g : Graph) (name : String) (node : Node) : g.insert name node =
    if g.contains name then .error (.duplicateEntity name)
    else .ok ⟨g.entities.insert name node⟩ := by
  rw [insert, Change.result, run_declare]
  cases g.contains name <;> rfl

end Graph

end EntityGraph
