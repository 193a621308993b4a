import EntityGraph.Hook.Basic
import EntityGraph.Json.Printer

/-!
# Ready-made hooks

Assertions on the kind, the size and the value of what they see, and transforms that rebuild a
value from what is at hand: the value itself, its parent and the request context.
-/

namespace EntityGraph

namespace Assertion

/-- An assertion that holds of the values that pass a test. -/
def require (label : Json) (test : Json → Bool) (reason : String) : Assertion :=
  ⟨label, fun v => if test v then .ok () else .error reason⟩

def accept (label : Json) : Assertion := ⟨label, fun _ => .ok ()⟩

def reject (label : Json) (reason : String) : Assertion := ⟨label, fun _ => .error reason⟩

def nonEmpty (label : Json) : Assertion :=
  require label (fun | .str s => s ≠ "" | _ => false) "must not be empty"

def ofKind (label : Json) (kind : Json.Kind) : Assertion :=
  require label (fun v => v.kind = kind) ("expected " ++ kind.name)

/-- Characters of a string, items of an array, members of an object; nothing else has a size. -/
def size : Json → Nat
  | .str s => s.length
  | .arr items => items.length
  | .obj members => members.length
  | _ => 0

def maxSize (label : Json) (limit : Nat) : Assertion :=
  require label (fun v => size v ≤ limit) ("longer than " ++ natString limit)

def differs (label forbidden : Json) : Assertion :=
  require label (fun v => !v.same forbidden) "forbidden value"

end Assertion

namespace Transform

/-- A transform that answers at once. -/
def immediate (label : Json) (f : TransformInput → Except String Json) : Transform :=
  ⟨label, fun i => .after 0 (f i)⟩

def onText (f : String → Json) : TransformInput → Except String Json := fun i =>
  match i.value with
  | .str s => .ok (f s)
  | _ => .error "expected a string"

def keep (label : Json) : Transform := immediate label fun i => .ok i.value

def const (label value : Json) : Transform := immediate label fun _ => .ok value

def wrap (label : Json) (key : String) : Transform :=
  immediate label fun i => .ok (.obj [(key, i.value)])

def asItem (label : Json) : Transform := immediate label fun i => .ok (.arr [i.value])

def member (label : Json) (key : String) : Transform :=
  immediate label fun i =>
    match i.value.member? key with
    | some v => .ok v
    | none => .error ("no key " ++ key)

def append (label : Json) (suffix : String) : Transform :=
  immediate label (onText fun s => .str (s ++ suffix))

/-- The rest of a text that starts with the given characters. -/
def dropStart : List Char → List Char → Option (List Char)
  | [], rest => some rest
  | _ :: _, [] => none
  | s :: start, c :: rest => if s = c then dropStart start rest else none

/-- The parts of a text between the places where `separator` is found, from the left and
without overlap.  `done` holds the characters of the part at hand, latest first. -/
def parts (separator : List Char) : Nat → List Char → List Char → List String
  | 0, done, rest => [String.ofList (done.reverse ++ rest)]
  | fuel + 1, done, rest =>
    match dropStart separator rest, rest with
    | some after, _ => String.ofList done.reverse :: parts separator fuel [] after
    | none, c :: rest => parts separator fuel (c :: done) rest
    | none, [] => [String.ofList done.reverse]

/-- The parts of a text between separators.  An empty separator stands before and after every
character. -/
def splitText (separator : String) (s : String) : List String :=
  if separator.isEmpty then "" :: s.toList.map (fun c => String.ofList [c]) ++ [""]
  else parts separator.toList (s.length + 1) [] s.toList

def split (label : Json) (separator : String) : Transform :=
  immediate label (onText fun s => .arr ((splitText separator s).map .str))

def parent (label : Json) : Transform := immediate label fun i => .ok i.parent

def sibling (label : Json) (key : String) : Transform :=
  immediate label fun i => .ok ((i.parent.member? key).getD .null)

def context (label : Json) : Transform := immediate label fun i => .ok (i.context.getD .null)

def text (label : Json) : Transform := immediate label fun i => .ok (.str i.value.compact)

def fail (label : Json) (reason : String) : Transform := immediate label fun _ => .error reason

def sleep (label : Json) (milliseconds : Nat) : Transform :=
  ⟨label, fun i => .after milliseconds (.ok i.value)⟩

def pending (label : Json) : Transform := ⟨label, fun _ => .never⟩

end Transform

end EntityGraph
