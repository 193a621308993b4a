import EntityGraph.FieldType.Basic

/-!
# Substitution of type parameters

Every reference without arguments whose name is bound becomes the type it is bound to, all at
once: what has been put in is not looked at again.  Lists keep their hooks.
-/

namespace EntityGraph

/-- What type parameters stand for. -/
abbrev Bindings := String → Option FieldType

namespace Bindings

def empty : Bindings := fun _ => none

/-- The bindings of a list of pairs; of two for one name the later one counts. -/
def ofPairs : List (String × FieldType) → Bindings
  | [], _ => none
  | (x, ty) :: rest, name => (ofPairs rest name).or (if x = name then some ty else none)

end Bindings

namespace FieldType

mutual

def substitute (b : Bindings) : FieldType → FieldType
  | .list element hooks => .list (element.substitute b) hooks
  | .named name fileName => (b name).getD (.named name fileName)
  | .generic name args fileName => .generic name (substituteAll b args) fileName

def substituteAll (b : Bindings) : List FieldType → List FieldType
  | [] => []
  | a :: rest => a.substitute b :: substituteAll b rest

end

/-! ## Lemmas -/

theorem substituteAll_eq_map (b : Bindings) (args : List FieldType) :
    substituteAll b args = args.map (·.substitute b) := by
  induction args with
  | nil => rfl
  | cons a rest ih => rw [substituteAll, ih, List.map_cons]

end FieldType

end EntityGraph
