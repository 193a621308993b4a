import EntityGraph.Json.Token

/-!
# Drafts: a document as far as it can be read

Decoding follows the text, so of two defects the earlier one is reported, whether it lies in
the text or in what the text says.  A `Draft` keeps what that needs: the tree of everything
before the first defect of the text, with repeated keys, and marks where reading stopped.

* A bracket that is not `closed` is one in which reading stopped, after the items it holds.
* A member whose value could not be read has the value `broken`.
* Strings and numbers without a value are `none`.
* A key is a draft as well: always a string in JSON, any value in other formats.
* A whole number zero with a minus sign, which JSON does not have, is zero but counts as
  negative where a number stands for a place.

`Draft.ofTokens` is a machine with a stack of open brackets that takes one token at a time.
-/

namespace EntityGraph

inductive Draft where
  | null
  | bool (value : Bool)
  | num (value : Option Number)
  | minusZero
  | str (value : Option String)
  | arr (items : List Draft) (closed : Bool)
  | obj (members : List (Draft × Draft)) (closed : Bool)
  | broken

namespace Draft

/-! ## Building -/

/-- An open bracket, with its parts in reverse. -/
inductive Frame where
  | items (done : List Draft)
  | members (done : List (Draft × Draft))
  /-- An object that waits for the value of `key`. -/
  | member (done : List (Draft × Draft)) (key : Draft)

/-- What may come next. -/
inductive Awaiting where
  /-- a value -/
  | value
  /-- the first item of an array, or its end -/
  | item
  /-- the first key of an object, or its end -/
  | key
  /-- a key, after a comma -/
  | nextKey
  /-- the colon after a key -/
  | colon
  /-- a comma or the end of the innermost bracket -/
  | next

/-- The tree that is left when reading stops inside the given brackets. -/
def abandon (inner : Option Draft) : List Frame → Draft
  | [] => inner.getD .broken
  | .items done :: stack => abandon (some (.arr (inner.toList ++ done).reverse false)) stack
  | .members done :: stack => abandon (some (.obj done.reverse false)) stack
  | .member done key :: stack =>
    abandon (some (.obj ((key, inner.getD .broken) :: done).reverse false)) stack

/-- Where a reader stands: before a token, or behind a complete document. -/
inductive Position where
  | inside (awaiting : Awaiting) (stack : List Frame)
  | complete (root : Draft)

/-- Puts a complete value where it belongs. -/
def supply (v : Draft) : List Frame → Position
  | [] => .complete v
  | .items done :: stack => .inside .next (.items (v :: done) :: stack)
  | .member done key :: stack => .inside .next (.members ((key, v) :: done) :: stack)
  | .members done :: stack => .inside .next (.members done :: stack)

/-- A value starts with the given token. -/
def start (stack : List Frame) : Token → Option Position
  | .null => some (supply .null stack)
  | .bool b => some (supply (.bool b) stack)
  | .num n => some (supply (.num n) stack)
  | .str s => some (supply (.str s) stack)
  | .openArray => some (.inside .item (.items [] :: stack))
  | .openObject => some (.inside .key (.members [] :: stack))
  | _ => none

/-- One token, if it may come here. -/
def step (stack : List Frame) : Awaiting → Token → Option Position
  | .value, t => start stack t
  | .item, .closeArray =>
    match stack with
    | .items done :: stack => some (supply (.arr done.reverse true) stack)
    | _ => none
  | .item, t => start stack t
  | .key, .closeObject =>
    match stack with
    | .members done :: stack => some (supply (.obj done.reverse true) stack)
    | _ => none
  | .key, .str k | .nextKey, .str k =>
    match stack with
    | .members done :: stack => some (.inside .colon (.member done (.str k) :: stack))
    | _ => none
  | .colon, .colon => some (.inside .value stack)
  | .next, .comma =>
    match stack with
    | .items done :: stack => some (.inside .value (.items done :: stack))
    | .members done :: stack => some (.inside .nextKey (.members done :: stack))
    | _ => none
  | .next, .closeArray =>
    match stack with
    | .items done :: stack => some (supply (.arr done.reverse true) stack)
    | _ => none
  | .next, .closeObject =>
    match stack with
    | .members done :: stack => some (supply (.obj done.reverse true) stack)
    | _ => none
  | _, _ => none

/-- A document: its root, and whether the text goes on after it. -/
structure Document where
  root : Draft
  overrun : Bool

/-- Reads tokens from a position. -/
def readFrom : Position → List Token → Document
  | .complete root, [] => ⟨root, false⟩
  | .complete root, _ :: _ => ⟨root, true⟩
  | .inside _ stack, [] => ⟨abandon none stack, false⟩
  | .inside awaiting stack, t :: ts =>
    match step stack awaiting t with
    | some position => readFrom position ts
    | none => ⟨abandon none stack, false⟩

def ofTokens (ts : List Token) : Document := readFrom (.inside .value []) ts

def ofText (s : String) : Document := ofTokens (Token.ofText s)

/-! ## Values -/

mutual

/-- Whether a value is complete: all brackets closed and at most `room` of them nested, and no
string or number without a value. -/
def intact (room : Nat) : Draft → Bool
  | .null => true
  | .bool _ => true
  | .num n => n.isSome
  | .minusZero => true
  | .str s => s.isSome
  | .arr items closed => closed && 0 < room && intactItems (room - 1) items
  | .obj members closed => closed && 0 < room && intactMembers (room - 1) members
  | .broken => false

def intactItems (room : Nat) : List Draft → Bool
  | [] => true
  | d :: ds => intact room d && intactItems room ds

def intactMembers (room : Nat) : List (Draft × Draft) → Bool
  | [] => true
  | (key, d) :: rest => intact room key && intact room d && intactMembers room rest

end

mutual

/-- Whether a value is well-formed text that can be passed over, at any depth. -/
def skippable : Draft → Bool
  | .arr items closed => closed && skippableItems items
  | .obj members closed => closed && skippableMembers members
  | .broken => false
  | _ => true

def skippableItems : List Draft → Bool
  | [] => true
  | d :: ds => skippable d && skippableItems ds

def skippableMembers : List (Draft × Draft) → Bool
  | [] => true
  | (_, d) :: rest => skippable d && skippableMembers rest

end

def numberValue : Number → Json
  | .int n => .num (.int n)
  | .float x => if x.isFinite then .num (.float x) else .null

mutual

/-- The value of a draft, if it has one; keys have to be strings.  Of two members with one key
the later one counts, at the place of the first.  A float that is not finite is null. -/
def value? : Draft → Option Json
  | .null => some .null
  | .bool b => some (.bool b)
  | .num n => n.map numberValue
  | .minusZero => some (.num (.int 0))
  | .str s => s.map .str
  | .arr items _ => (values? items).map .arr
  | .obj members _ => (memberValues? members).map fun ms => .obj (Assoc.insertAll [] ms)
  | .broken => none

def values? : List Draft → Option (List Json)
  | [] => some []
  | d :: ds => do return (← value? d) :: (← values? ds)

def memberValues? : List (Draft × Draft) → Option (List (String × Json))
  | [] => some []
  | (.str (some key), d) :: rest => do return (key, ← value? d) :: (← memberValues? rest)
  | _ :: _ => none

end

end Draft

end EntityGraph
