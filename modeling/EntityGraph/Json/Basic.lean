import EntityGraph.Assoc

/-!
# JSON values

Numbers are exact integers or 64-bit floating-point numbers, and the two never compare equal.
Members of an object keep the order of their first appearance.  `Json.same` is equality of
values: the order of an object's members does not count.
-/

namespace EntityGraph

inductive Number where
  | int (value : Int)
  | float (value : Float)

inductive Json where
  | null
  | bool (value : Bool)
  | num (value : Number)
  | str (value : String)
  | arr (items : List Json)
  | obj (members : List (String × Json))

instance : Inhabited Json := ⟨.null⟩

namespace Number

def same : Number → Number → Bool
  | .int m, .int n => m == n
  | .float x, .float y => x == y
  | _, _ => false

end Number

namespace Json

/-- The kinds of JSON value, as error messages name them. -/
inductive Kind where
  | null | boolean | number | string | array | object
  deriving DecidableEq

def Kind.name : Kind → String
  | .null => "null"
  | .boolean => "boolean"
  | .number => "number"
  | .string => "string"
  | .array => "array"
  | .object => "object"

def kind : Json → Kind
  | .null => .null
  | .bool _ => .boolean
  | .num _ => .number
  | .str _ => .string
  | .arr _ => .array
  | .obj _ => .object

/-- A natural number as a JSON value. -/
def nat (n : Nat) : Json := .num (.int n)

/-- The text of `s`, or null. -/
def ofText? : Option String → Json
  | none => .null
  | some s => .str s

/-- A member of an object; nothing else has members. -/
def member? (key : String) : Json → Option Json
  | .obj members => Assoc.find? key members
  | _ => none

mutual

/-- Equality of values, in which the order of an object's members does not count. -/
def same : Json → Json → Bool
  | .null, .null => true
  | .bool a, .bool b => a == b
  | .num a, .num b => a.same b
  | .str a, .str b => a == b
  | .arr xs, .arr ys => sameItems xs ys
  | .obj ms, .obj ns => ms.length == ns.length && sameMembers ms ns
  | _, _ => false

def sameItems : List Json → List Json → Bool
  | [], [] => true
  | x :: xs, y :: ys => same x y && sameItems xs ys
  | _, _ => false

/-- Every member of the first list is in the second, with the same value. -/
def sameMembers : List (String × Json) → List (String × Json) → Bool
  | [], _ => true
  | (k, v) :: rest, ns =>
    (match Assoc.find? k ns with
      | some w => same v w
      | none => false) && sameMembers rest ns

end

mutual

/-- The number of brackets inside one another. -/
def depth : Json → Nat
  | .arr items => depthItems items + 1
  | .obj members => depthMembers members + 1
  | _ => 0

def depthItems : List Json → Nat
  | [] => 0
  | v :: rest => max (depth v) (depthItems rest)

def depthMembers : List (String × Json) → Nat
  | [] => 0
  | (_, v) :: rest => max (depth v) (depthMembers rest)

end

/-! ## Lemmas -/

theorem depthItems_le_iff {items : List Json} {room : Nat} :
    depthItems items ≤ room ↔ ∀ v ∈ items, v.depth ≤ room := by
  induction items with
  | nil => simp [depthItems]
  | cons v rest ih => rw [depthItems, Nat.max_le, ih, List.forall_mem_cons]

theorem depthMembers_le_iff {members : List (String × Json)} {room : Nat} :
    depthMembers members ≤ room ↔ ∀ p ∈ members, p.2.depth ≤ room := by
  induction members with
  | nil => simp [depthMembers]
  | cons p rest ih => rw [depthMembers, Nat.max_le, ih, List.forall_mem_cons]

end Json

end EntityGraph
