import EntityGraph.Dict
import EntityGraph.Document.DecodeError
import EntityGraph.Json.Draft

/-!
# Decoders

A decoder turns a draft into a value or says why it cannot.  Of several defects it reports the
one that comes first in the text.

Records may be written as objects, or as arrays of their members in order of declaration.  In an
object a number as key is the place of the member in that order; JSON has no such keys.
`Record` describes a record by its members in that order.  Reading it attaches to each failure
the place of the member it was met at (`Placed`), and the failure at the least place wins:

    place of a member      what is wrong with the member itself, or its key repeats
    after the last member  the bracket is not closed
    after that             a member is missing, in order of declaration

A tagged value is an object with a member `kind`, or an array that starts with the kind.  Its
whole text is read before it is decoded, so inside it a defect of the text comes first wherever
it stands; only the kind itself is decoded as soon as it has been read.
-/

namespace EntityGraph

/-- How far the text around a value has been read. -/
structure Reading where
  /-- Whether all of the value is known to be intact. -/
  held : Bool
  /-- How many more brackets may be opened inside one another. -/
  room : Nat

namespace Reading

/-- A document read from its start. -/
def document : Reading := ⟨false, 127⟩

/-- Inside one more bracket. -/
def enter (r : Reading) : Reading := { r with room := r.room - 1 }

end Reading

abbrev Decoder (α : Type) := Reading → Draft → Except DecodeError α

namespace Decoder

variable {α β : Type}

/-! ## Values without a name -/

/-- What a draft is, if that much of it could be read. -/
def found? : Draft → Option Found
  | .null => some .null
  | .bool b => some (.bool b)
  | .num (some (.int n)) => some (.int n)
  | .num (some (.float x)) => some (.float x)
  | .num none => none
  | .minusZero => some (.int 0)
  | .str s => s.map .text
  | .arr .. => some .sequence
  | .obj .. => some .map
  | .broken => none

/-- The failure of a decoder that expected something else. -/
def mismatch (expected : Expected) (d : Draft) : Except DecodeError α :=
  match found? d with
  | some found => .error (.invalidType found expected)
  | none => .error .malformed

def text : Decoder String
  | _, .str (some s) => .ok s
  | _, d => mismatch .text d

def flag : Decoder Bool
  | _, .bool b => .ok b
  | _, d => mismatch .flag d

/-- A whole number from 0 up to `2 ^ bits - 1`. -/
def unsigned (bits : Nat) (expected : Expected) : Decoder Nat
  | _, .num (some (.int n)) =>
    if 0 ≤ n && n < (Nat.pow 2 bits : Int) then .ok n.toNat
    else .error (.invalidValue (.int n) expected)
  | _, .minusZero => .ok 0
  | _, d => mismatch expected d

def id : Decoder UInt32 := fun r d => UInt32.ofNat <$> unsigned 32 .id r d

def index : Decoder UInt64 := fun r d => UInt64.ofNat <$> unsigned 64 .index r d

/-- Null, or a value. -/
def orNull (decode : Decoder α) : Decoder (Option α)
  | _, .null => .ok none
  | r, d => some <$> decode r d

/-- Any JSON value. -/
def free : Decoder Json := fun r d =>
  if d.intact r.room then
    match d.value? with
    | some v => .ok v
    | none => .error .malformed
  else .error .malformed

/-- A free value of which null stands for none. -/
def freeOrNull : Decoder (Option Json) := orNull free

def sequence (decode : Decoder α) : Decoder (List α)
  | r, .arr items closed =>
    if r.room = 0 then .error .malformed
    else do
      let values ← items.mapM (decode r.enter)
      if closed then .ok values else .error .malformed
  | _, d => mismatch .sequence d

/-- The members of an object, in order, each checked against those before it. -/
def membersInto (decode : Decoder α) (insert : β → String → α → Except DecodeError β)
    (r : Reading) : β → List (Draft × Draft) → Except DecodeError β
  | acc, [] => .ok acc
  | acc, (.str (some key), d) :: rest => do
    let value ← decode r d
    let acc ← insert acc key value
    membersInto decode insert r acc rest
  | _, _ :: _ => .error .malformed

/-- An object whose members are gathered from left to right. -/
def gather (expected : Expected) (decode : Decoder α)
    (insert : β → String → α → Except DecodeError β) (start : β) : Decoder β
  | r, .obj members closed =>
    if r.room = 0 then .error .malformed
    else do
      let acc ← membersInto decode insert r.enter start members
      if closed then .ok acc else .error .malformed
  | _, d => mismatch expected d

/-- An object as a dictionary.  Of two members with one key the later one counts. -/
def dict (decode : Decoder α) : Decoder (Dict α) :=
  gather .map decode (fun acc key value => .ok (acc.insert key value)) .empty

end Decoder

/-! ## Records -/

/-- A value, or a failure and the place of the member it was met at. -/
abbrev Placed (α : Type) := Except (Nat × DecodeError) α

namespace Placed

variable {α β : Type}

/-- Two parts of a record: of two failures the one at the lesser place counts. -/
def both (f : Placed (α → β)) (a : Placed α) : Placed β :=
  match f, a with
  | .ok f, .ok a => .ok (f a)
  | .error e, .ok _ => .error e
  | .ok _, .error e => .error e
  | .error e, .error e' => .error (if e'.1 < e.1 then e' else e)

end Placed

/-- The members of a record as written. -/
structure Members where
  reading : Reading
  /-- The members in order, each with the known name that its key stands for. -/
  entries : List (Option String × Draft)
  /-- Whether the record is written as a sequence. -/
  listed : Bool
  /-- The failure that a missing member is. -/
  missing : String → DecodeError

namespace Members

/-- The first member of a name, and its place. -/
def find? (name : String) : List (Option String × Draft) → Nat → Option (Nat × Draft)
  | [], _ => none
  | (key, d) :: rest, place =>
    if key = some name then some (place, d) else find? name rest (place + 1)

/-- A missing member comes after all that is written, the closing bracket included. -/
def absent {α : Type} (ms : Members) (name : String) : Placed α :=
  .error (ms.entries.length + 1, ms.missing name)

end Members

/-- How a record is read: the names of its members in order of declaration, and what becomes of
them. -/
structure Record (α : Type) where
  names : List String
  read : Members → Placed α

namespace Record

variable {α β : Type}

instance : Functor Record where
  map f r := ⟨r.names, fun ms => f <$> r.read ms⟩

instance : Seq Record where
  seq f a := ⟨f.names ++ (a ()).names, fun ms => .both (f.read ms) ((a ()).read ms)⟩

/-- A member that is decoded if it is there. -/
def member (name : String) (decode : Decoder α) (absent : Members → Placed α) : Record α where
  names := [name]
  read ms :=
    match Members.find? name ms.entries 0 with
    | some (place, d) => (decode ms.reading d).mapError fun e => (place, e)
    | none => absent ms

def required (name : String) (decode : Decoder α) : Record α :=
  member name decode fun ms => ms.absent name

/-- A member with a default. -/
def optional (name : String) (decode : Decoder α) (default : α) : Record α :=
  member name decode fun _ => .ok default

/-- A member that may be null, and that only an object may leave out. -/
def nullable (name : String) (decode : Decoder α) : Record (Option α) :=
  member name (Decoder.orNull decode) fun ms => if ms.listed then ms.absent name else .ok none

/-- What a key stands for in a record. -/
inductive KeyMeaning where
  | known (name : String)
  /-- a member that the record does not have -/
  | unknown
  /-- nothing that can be the key of a record -/
  | improper

/-- A key is the name of a member, or a number: the place of the member among those known. -/
def meaning (known : List String) : Draft → KeyMeaning
  | .str (some name) => if name ∈ known then .known name else .unknown
  | .num (some (.int n)) =>
    if n < 0 then .improper
    else match known[n.toNat]? with
      | some name => .known name
      | none => .unknown
  | _ => .improper

def KeyMeaning.name? : KeyMeaning → Option String
  | .known name => some name
  | _ => none

/-- What is wrong with an object apart from the values of its known members: an improper key, a
known member that comes again, an unknown member that cannot be passed over, or an object that
does not end. -/
def objectFault (known : List String) (closed : Bool) :
    List String → Nat → List (Draft × Draft) → Option (Nat × DecodeError)
  | _, place, [] => if closed then none else some (place, .malformed)
  | seen, place, (key, d) :: rest =>
    match meaning known key with
    | .known name =>
      if name ∈ seen then some (place, .repeatedMember name)
      else objectFault known closed (name :: seen) (place + 1) rest
    | .unknown =>
      if d.skippable then objectFault known closed seen (place + 1) rest
      else some (place, .malformed)
    | .improper => some (place, .malformed)

/-- What is wrong with an array of `count` items that stands for a record of `known` members. -/
def arrayFault (r : Reading) (known count : Nat) (closed : Bool) : Option (Nat × DecodeError) :=
  if known < count then some (known, if r.held then .tooLong count known else .malformed)
  else if closed then none
  else some (count, .malformed)

/-- The value, unless there is a fault before its own failure. -/
def settle (fault : Option (Nat × DecodeError)) (value : Placed α) : Except DecodeError α :=
  match fault, value with
  | none, .ok a => .ok a
  | none, .error e => .error e.2
  | some f, .ok _ => .error f.2
  | some f, .error e => .error (if e.1 < f.1 then e.2 else f.2)

/-- The decoder of a record with the given name. -/
def decoder (name : String) (record : Record α) : Decoder α
  | r, .obj members closed =>
    if r.room = 0 then .error .malformed
    else
      settle (objectFault record.names closed [] 0 members)
        (record.read ⟨r.enter,
          members.map fun (key, d) => ((meaning record.names key).name?, d),
          false, .missingMember⟩)
  | r, .arr items closed =>
    if r.room = 0 then .error .malformed
    else
      settle (arrayFault r record.names.length items.length closed)
        (record.read ⟨r.enter, (record.names.map some).zip items, true,
          fun member => .tooShort (record.names.idxOf member) name record.names.length⟩)
  | _, d => Decoder.mismatch (.record name) d

end Record

/-! ## Tagged values -/

namespace Tagged

variable {α : Type}

/-- The member that holds the kind. -/
def key : String := "kind"

/-- The decoder that a kind asks for.  Inside a value that is held already, a kind may also be
the number of its place. -/
def choose (kinds : List (String × Decoder α)) (r : Reading) :
    Draft → Except DecodeError (Decoder α)
  | .str (some name) =>
    match Assoc.find? name kinds with
    | some decode => .ok decode
    | none => .error (.unknownVariant name (Assoc.keys kinds))
  | .num (some (.int n)) =>
    if r.held && 0 ≤ n then
      match kinds[n.toNat]? with
      | some (_, decode) => .ok decode
      | none => .error (.invalidValue (.int n) (.variantIndex kinds.length))
    else .error (.invalidType (.int n) .variant)
  | d => Decoder.mismatch .variant d

def isKey : Draft → Bool
  | .str (some name) => name = key
  | _ => false

/-- The members after the kind. -/
def restOfMembers (r : Reading) : List (Draft × Draft) → Except DecodeError (List (Draft × Draft))
  | [] => .ok []
  | (k, d) :: rest =>
    if isKey k then .error (.repeatedMember key)
    else if k.intact r.room && d.intact r.room then ((k, d) :: ·) <$> restOfMembers r rest
    else .error .malformed

/-- Takes the kind out of the members of an object. -/
def splitMembers (kinds : List (String × Decoder α)) (r : Reading) :
    List (Draft × Draft) → Except DecodeError (Option (Decoder α) × List (Draft × Draft))
  | [] => .ok (none, [])
  | (k, d) :: rest =>
    if isKey k then do
      let decode ← choose kinds r d
      let others ← restOfMembers r rest
      return (some decode, others)
    else if k.intact r.room && d.intact r.room then do
      let (decode, others) ← splitMembers kinds r rest
      return (decode, (k, d) :: others)
    else .error .malformed

/-- The decoder of a tagged value with the given name: after its kind, the members are those of
the record that the kind stands for. -/
def decoder (name : String) (kinds : List (String × Decoder α)) : Decoder α
  | r, .obj members closed =>
    if r.room = 0 then .error .malformed
    else do
      let (decode?, others) ← splitMembers kinds r.enter members
      match closed, decode? with
      | false, _ => .error .malformed
      | true, none => .error (.missingMember key)
      | true, some decode => decode { r with held := true } (.obj others true)
  | r, .arr items closed =>
    if r.room = 0 then .error .malformed
    else
      match items with
      | [] => if closed then .error (.missingMember key) else .error .malformed
      | d :: rest => do
        let decode ← choose kinds r.enter d
        if closed && rest.all (Draft.intact r.enter.room) then
          decode { r with held := true } (.arr rest true)
        else .error .malformed
  | _, d => Decoder.mismatch (.tagged name) d

end Tagged

end EntityGraph
