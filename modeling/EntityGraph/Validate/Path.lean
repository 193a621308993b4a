import EntityGraph.Text.Numeral

/-!
# Paths into a payload

A path starts at an entity and goes through fields, by the names that payloads use, and through
list elements, by position: `Person.addresses[1].zip`.
-/

namespace EntityGraph

namespace FieldPath

inductive Segment where
  | field (name : String)
  | index (position : Nat)
  deriving DecidableEq

def Segment.text : Segment → String
  | .field name => "." ++ name
  | .index position => "[" ++ natString position ++ "]"

end FieldPath

structure FieldPath where
  entity : String
  /-- The segments from the last one on. -/
  ending : List FieldPath.Segment
  deriving DecidableEq

namespace FieldPath

/-- The path of the entity itself. -/
def root (entity : String) : FieldPath := ⟨entity, []⟩

def field (p : FieldPath) (name : String) : FieldPath :=
  { p with ending := .field name :: p.ending }

def index (p : FieldPath) (position : Nat) : FieldPath :=
  { p with ending := .index position :: p.ending }

/-- The segments from the entity on. -/
def segments (p : FieldPath) : List Segment := p.ending.reverse

@[simp] theorem segments_root (entity : String) : (root entity).segments = [] := rfl

@[simp] theorem segments_field (p : FieldPath) (name : String) :
    (p.field name).segments = p.segments ++ [.field name] := List.reverse_cons

@[simp] theorem segments_index (p : FieldPath) (position : Nat) :
    (p.index position).segments = p.segments ++ [.index position] := List.reverse_cons

/-- The last field on the path. -/
def lastField? (p : FieldPath) : Option String :=
  p.ending.findSome? fun
    | .field name => some name
    | .index _ => none

def text (p : FieldPath) : String := p.entity ++ String.join (p.segments.map (·.text))

end FieldPath

end EntityGraph
