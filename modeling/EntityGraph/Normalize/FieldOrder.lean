import EntityGraph.Normalize.Resolution

/-!
# The order of inherited fields

Fields of an object that inherits are sorted: those of the last name in the inherit list come
first and the object's own come last; fields of one owner follow their index, and fields that
still agree keep the order in which they are exposed.  An object that inherits nothing exposes
its fields as they are.
-/

namespace EntityGraph.FieldOrder

/-- The first place of the field's owner in the inherit list, or `-1`. -/
def rank (ancestors : List String) (f : ResolvedField) : Int :=
  match ancestors.findIdx? (· = f.field.owner) with
  | some i => i
  | none => -1

/-- Whether `a` has to come before `b`. -/
def before (ancestors : List String) (a b : ResolvedField) : Bool :=
  let ra := rank ancestors a
  let rb := rank ancestors b
  rb < ra || (ra = rb && a.field.index < b.field.index)

/-- Puts a field in front of the first one that need not come before it. -/
def place (ancestors : List String) (f : ResolvedField) : List ResolvedField → List ResolvedField
  | [] => [f]
  | g :: rest =>
    if before ancestors g f then g :: place ancestors f rest else f :: g :: rest

def sort (ancestors : List String) : List ResolvedField → List ResolvedField
  | [] => []
  | f :: rest => place ancestors f (sort ancestors rest)

/-- The fields of an object in the order in which its sides show them. -/
def arrange (o : Object) (fields : List ResolvedField) : List ResolvedField :=
  if o.ancestors.isEmpty then fields else sort o.ancestors fields

end EntityGraph.FieldOrder
