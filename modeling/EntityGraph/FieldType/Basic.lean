import EntityGraph.Hook.Basic

/-!
# Field types

The type of a field is a reference to an entity under any number of lists.  Each list level
carries hooks that run once for each element.  A reference may have type arguments; one without
arguments and one with an empty list of them are different things.
-/

namespace EntityGraph

/-- Stands for a place in the declaring source that was not recorded. -/
def unknownLocation : String := "<unknown>"

inductive FieldType where
  | list (element : FieldType) (hooks : Hooks)
  | named (name : String) (fileName : Option String)
  | generic (name : String) (args : List FieldType) (fileName : Option String)

instance : Inhabited FieldType := ⟨.named "" none⟩

/-- What a field type refers to under its lists. -/
structure Reference where
  name : String
  args : Option (List FieldType)
  fileName : Option String

namespace Reference

def location (r : Reference) : String := r.fileName.getD unknownLocation

def toType (r : Reference) : FieldType :=
  match r.args with
  | none => .named r.name r.fileName
  | some args => .generic r.name args r.fileName

end Reference

namespace FieldType

/-- The reference under all lists. -/
def terminal : FieldType → Reference
  | .list element _ => element.terminal
  | .named name fileName => ⟨name, none, fileName⟩
  | .generic name args fileName => ⟨name, some args, fileName⟩

/-- The number of lists around the reference. -/
def listDepth : FieldType → Nat
  | .list element _ => element.listDepth + 1
  | .named .. => 0
  | .generic .. => 0

/-- The same lists, with their hooks, around another type. -/
def onTerminal (ty : FieldType) (inner : FieldType) : FieldType :=
  match ty with
  | .list element hooks => .list (element.onTerminal inner) hooks
  | .named .. => inner
  | .generic .. => inner

/-! ## Lemmas -/

@[simp] theorem terminal_toType (r : Reference) : r.toType.terminal = r := by
  cases r with
  | mk name args fileName => cases args <;> rfl

@[simp] theorem terminal_onTerminal (inner : FieldType) :
    (ty : FieldType) → (ty.onTerminal inner).terminal = inner.terminal
  | .list element _ => terminal_onTerminal inner element
  | .named .. => rfl
  | .generic .. => rfl

@[simp] theorem onTerminal_terminal : (ty : FieldType) → ty.onTerminal ty.terminal.toType = ty
  | .list element hooks => congrArg (FieldType.list · hooks) (onTerminal_terminal element)
  | .named .. => rfl
  | .generic .. => rfl

end FieldType

end EntityGraph
